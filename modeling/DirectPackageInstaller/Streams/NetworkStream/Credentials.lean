import DirectPackageInstaller.Lib.PercentEncoding

/-!
# The credentials in a URL

`CreateNewRequest` takes the user and the password from the user information of the
URL, which it cuts at the colons.

* `credentials_iff`: a user and a password that were escaped are read back.  One that was
  not is read back exactly if it has no colon and no escape that says something else.
-/

namespace DirectPackageInstaller.NetworkStream

open Text PercentEncoding

/-- The credentials of the request, if it gets any: `UserInfo.Split(':')` with its first
part and the one at index 1. -/
def credentials (userInfo : Text) : Option (Text × Text) :=
  if ':' ∈ userInfo then
    let parts := userInfo.splitOnP (· == ':')
    some (unescape (parts.headD []), unescape (parts[1]?.getD []))
  else none

theorem splitOnP_colon {user : Text} (huser : ':' ∉ user) (rest : Text) :
    (user ++ ':' :: rest).splitOnP (· == ':') = user :: rest.splitOnP (· == ':') := by
  apply List.splitOnP_append_cons_of_forall_mem
  · intro c hc
    simp
    exact fun heq => huser (heq ▸ hc)
  · rfl

theorem getElem?_splitOnP_zero (text : Text) :
    (text.splitOnP (· == ':'))[0]? = some (before ':' text) := by
  by_cases hin : ':' ∈ text
  · obtain ⟨user, rest, htext, huser⟩ := List.eq_append_cons_of_mem hin
    rw [htext, splitOnP_colon huser, before_append_cons huser]
    rfl
  · rw [List.splitOnP_eq_singleton, before_eq_self hin]
    · rfl
    · intro c hc
      simp
      exact fun heq => hin (heq ▸ hc)

theorem credentials_append {user : Text} (huser : ':' ∉ user) (rest : Text) :
    credentials (user ++ ':' :: rest) = some (unescape user, unescape (before ':' rest)) := by
  have hsecond := getElem?_splitOnP_zero rest
  unfold credentials
  rw [if_pos (by simp), splitOnP_colon huser]
  dsimp only
  rw [List.getElem?_cons_succ, hsecond]
  rfl

/-- What is in front of the first colon says the whole text only if there is no colon. -/
theorem unescape_before_eq_self {text : Text} :
    unescape (before ':' text) = text ↔ ':' ∉ text ∧ unescape text = text := by
  constructor
  · intro heq
    have hin : ':' ∉ text := by
      intro hin
      obtain ⟨first, rest, htext, hfirst⟩ := List.eq_append_cons_of_mem hin
      have hle := length_unescape_le (before ':' text)
      rw [heq, htext, before_append_cons hfirst] at hle
      simp only [List.length_append, List.length_cons] at hle
      omega
    rw [before_eq_self hin] at heq
    exact ⟨hin, heq⟩
  · intro ⟨hin, heq⟩
    rw [before_eq_self hin, heq]

theorem credentials_user (user password : Text) :
    (credentials (user ++ ':' :: password)).map Prod.fst = some (unescape (before ':' user)) := by
  by_cases hin : ':' ∈ user
  · obtain ⟨first, rest, huser, hfirst⟩ := List.eq_append_cons_of_mem hin
    rw [huser, List.append_assoc, List.cons_append, credentials_append hfirst,
      before_append_cons hfirst]
    rfl
  · rw [credentials_append hin, before_eq_self hin]
    rfl

/-- An escaped user and an escaped password are read back.  A user that was not escaped
is read back exactly if it has no colon and unescaping leaves it alone, and so is a
password behind a user without colons. -/
theorem credentials_iff :
    (∀ user password : Text,
      credentials (escape user ++ ':' :: escape password) = some (user, password)) ∧
      ∀ user password : Text,
        ((credentials (user ++ ':' :: password)).map Prod.fst = some user ↔
          ':' ∉ user ∧ unescape user = user) ∧
        (':' ∉ user →
          ((credentials (user ++ ':' :: password)).map Prod.snd = some password ↔
            ':' ∉ password ∧ unescape password = password)) := by
  have hcolon : Token.Sought (.plain ':') := by decide
  refine ⟨fun user password => ?_, fun user password => ⟨?_, fun huser => ?_⟩⟩
  · have huser := not_mem_escape hcolon rfl user
    have hpassword := not_mem_escape hcolon rfl password
    rw [credentials_append huser, before_eq_self hpassword, unescape_escape, unescape_escape]
  · rw [credentials_user, Option.some_inj, unescape_before_eq_self]
  · rw [credentials_append huser, Option.map_some, Option.some_inj, unescape_before_eq_self]

/-- The escape `%41` says `A`, and what is behind a second colon is lost. -/
theorem credentials_iff_escape :
    (credentials "user:%41".toList).map Prod.fst = some "user".toList ∧
      (credentials "user:%41".toList).map Prod.snd ≠ some "%41".toList ∧
      (credentials "user:pass:word".toList).map Prod.snd ≠ some "pass:word".toList :=
  ⟨(credentials_iff.2 "user".toList "%41".toList).1.2 ⟨by decide, by decide⟩,
    fun h => absurd (((credentials_iff.2 "user".toList "%41".toList).2 (by decide)).1 h).2
      (by decide),
    fun h => absurd (((credentials_iff.2 "user".toList "pass:word".toList).2 (by decide)).1 h).1
      (by decide)⟩

end DirectPackageInstaller.NetworkStream

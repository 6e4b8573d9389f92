import DirectPackageInstaller.Lib.Transition
import Mathlib.Logic.Function.Basic

/-!
# The links of a page on a file host

Every `FileHostStream` asks its host for the link behind its page, and all streams share
the links in `UrlCache`.  The hosts `AllDebrid`, `RealDebrid` and `DebridLink` keep a cache
of their own besides.  `NetworkStream` calls `Refresh` when a link is missing or fails.

* `url_answered`: a stream only ever has a link that its host gave for its page.
* `link_kept`: such a host gives a page one link for ever.  Every `Refresh` ends with it.
* `served_iff`: a stream that has seen a link in the cache finds it there, exactly if no
  other stream removes the page in between.
-/

namespace DirectPackageInstaller.FileHostStream

open Transition

/-! ## The code -/

/-- Where a stream is in `Refresh`. -/
inductive Phase (L : Type) where
  | idle
  /-- Before `UrlCache.Remove(PageUrl)`. -/
  | removing
  /-- Before the `UrlCache.ContainsKey(PageUrl)` of `GetUrl`. -/
  | checking
  /-- Before `Info = UrlCache[PageUrl]`. -/
  | reading
  /-- Before the `GenCache.ContainsKey(URL)` of `GetDownloadInfo`. -/
  | generating
  /-- Before `GenCache[URL]` is read. -/
  | reusing
  /-- The host is asked. -/
  | asking
  /-- Before `GenCache[URL]` is assigned for the second time. -/
  | keeping (link : L)
  /-- Before `UrlCache[PageUrl] = Info`. -/
  | storing (link : L)
  /-- An exception was thrown. -/
  | failed
deriving DecidableEq, Repr

/-- A stream and the entries of its page. -/
structure View (L : Type) where
  urlEntry : Option L
  genEntry : Option L
  phase : Phase L
  url : Option L
deriving DecidableEq, Repr

inductive Action (L : Type) where
  /-- `Refresh` with its `ContainsKey`. -/
  | refresh
  | remove
  | check
  | read
  | generate
  | reuse
  /-- The host's answer, or an exception. -/
  | answer (link : Option L)
  | keep
  | store
deriving DecidableEq, Repr

/-- One step of a stream.  `caches` says whether the host has a `GenCache`. -/
def act {L : Type} (caches : Bool) (c : View L) : Action L → Option (View L)
  | .refresh =>
    match c.phase with
    | .idle | .failed =>
      some { c with phase := if c.urlEntry.isSome then .removing else .checking }
    | _ => none
  | .remove =>
    match c.phase with
    | .removing => some { c with urlEntry := none, phase := .checking }
    | _ => none
  | .check =>
    match c.phase with
    | .checking =>
      some { c with
        phase := if c.urlEntry.isSome then .reading else if caches then .generating else .asking }
    | _ => none
  | .read =>
    match c.phase, c.urlEntry with
    | .reading, some link => some { c with url := some link, phase := .idle }
    | .reading, none => some { c with phase := .failed }
    | _, _ => none
  | .generate =>
    match c.phase with
    | .generating => some { c with phase := if c.genEntry.isSome then .reusing else .asking }
    | _ => none
  | .reuse =>
    match c.phase, c.genEntry with
    | .reusing, some link => some { c with phase := .storing link }
    | .reusing, none => some { c with phase := .failed }
    | _, _ => none
  | .answer link =>
    match c.phase, link with
    | .asking, none => some { c with phase := .failed }
    | .asking, some link =>
      if caches then some { c with genEntry := some link, phase := .keeping link }
      else some { c with phase := .storing link }
    | _, _ => none
  | .keep =>
    match c.phase with
    | .keeping link => some { c with genEntry := some link, phase := .storing link }
    | _ => none
  | .store =>
    match c.phase with
    | .storing link => some { c with urlEntry := some link, url := some link, phase := .idle }
    | _ => none

structure Stream (L : Type) where
  phase : Phase L
  url : Option L

structure State (κ L : Type) where
  urlCache : κ → Option L
  genCache : κ → Option L
  streams : Nat → Stream L

variable {κ L : Type} [DecidableEq κ] (page : Nat → κ) (caches : κ → Bool)

def view (s : State κ L) (i : Nat) : View L where
  urlEntry := s.urlCache (page i)
  genEntry := s.genCache (page i)
  phase := (s.streams i).phase
  url := (s.streams i).url

def put (s : State κ L) (i : Nat) (c : View L) : State κ L where
  urlCache := Function.update s.urlCache (page i) c.urlEntry
  genCache := Function.update s.genCache (page i) c.genEntry
  streams := Function.update s.streams i ⟨c.phase, c.url⟩

/-- The streams take their steps in any order.  `caches` says of every page whether its host
has a `GenCache`. -/
def system : System (State κ L) (Nat × Action L) where
  init := fun s => (∀ p, s.urlCache p = none ∧ s.genCache p = none) ∧
    ∀ i, s.streams i = ⟨.idle, none⟩
  step := fun s l => (act (caches (page l.1)) (view page s l.1) l.2).map (put page s l.1)

variable {page caches} {s s' : State κ L}

/-- What the steps do. -/
inductive Acts (caches : Bool) (c : View L) : Action L → View L → Prop
  | refresh (h : c.phase = .idle ∨ c.phase = .failed) :
    Acts caches c .refresh { c with phase := if c.urlEntry.isSome then .removing else .checking }
  | remove (h : c.phase = .removing) :
    Acts caches c .remove { c with urlEntry := none, phase := .checking }
  | found {link : L} (h : c.phase = .checking) (hentry : c.urlEntry = some link) :
    Acts caches c .check { c with phase := .reading }
  | missing (h : c.phase = .checking) (hentry : c.urlEntry = none) :
    Acts caches c .check { c with phase := if caches then .generating else .asking }
  | read {link : L} (h : c.phase = .reading) (hentry : c.urlEntry = some link) :
    Acts caches c .read { c with url := some link, phase := .idle }
  | lost (h : c.phase = .reading) (hentry : c.urlEntry = none) :
    Acts caches c .read { c with phase := .failed }
  | generate (h : c.phase = .generating) :
    Acts caches c .generate { c with phase := if c.genEntry.isSome then .reusing else .asking }
  | reuse {link : L} (h : c.phase = .reusing) (hentry : c.genEntry = some link) :
    Acts caches c .reuse { c with phase := .storing link }
  | forgotten (h : c.phase = .reusing) (hentry : c.genEntry = none) :
    Acts caches c .reuse { c with phase := .failed }
  | refused (h : c.phase = .asking) : Acts caches c (.answer none) { c with phase := .failed }
  | kept {link : L} (h : c.phase = .asking) (hcaches : caches = true) :
    Acts caches c (.answer (some link)) { c with genEntry := some link, phase := .keeping link }
  | passed {link : L} (h : c.phase = .asking) (hcaches : caches = false) :
    Acts caches c (.answer (some link)) { c with phase := .storing link }
  | keep {link : L} (h : c.phase = .keeping link) :
    Acts caches c .keep { c with genEntry := some link, phase := .storing link }
  | store {link : L} (h : c.phase = .storing link) :
    Acts caches c .store { c with urlEntry := some link, url := some link, phase := .idle }

theorem acts_of_act {gen : Bool} {c c' : View L} {a : Action L} (h : act gen c a = some c') :
    Acts gen c a c' := by
  obtain ⟨urlEntry, genEntry, phase, url⟩ := c
  cases a with
  | refresh =>
    cases phase with
    | idle => cases h; exact .refresh (Or.inl rfl)
    | failed => cases h; exact .refresh (Or.inr rfl)
    | _ => cases h
  | remove =>
    cases phase with
    | removing => cases h; exact .remove rfl
    | _ => cases h
  | check =>
    cases phase with
    | checking =>
      cases urlEntry with
      | none => cases h; exact .missing rfl rfl
      | some link => cases h; exact .found rfl rfl
    | _ => cases h
  | read =>
    cases phase with
    | reading =>
      cases urlEntry with
      | none => cases h; exact .lost rfl rfl
      | some link => cases h; exact .read rfl rfl
    | _ => cases h
  | generate =>
    cases phase with
    | generating => cases h; exact .generate rfl
    | _ => cases h
  | reuse =>
    cases phase with
    | reusing =>
      cases genEntry with
      | none => cases h; exact .forgotten rfl rfl
      | some link => cases h; exact .reuse rfl rfl
    | _ => cases h
  | answer link =>
    cases phase with
    | asking =>
      cases link with
      | none => cases h; exact .refused rfl
      | some link =>
        cases gen with
        | true => cases h; exact .kept rfl rfl
        | false => cases h; exact .passed rfl rfl
    | _ => cases h
  | keep =>
    cases phase with
    | keeping link => cases h; exact .keep rfl
    | _ => cases h
  | store =>
    cases phase with
    | storing link => cases h; exact .store rfl
    | _ => cases h

theorem step_acts {l : Nat × Action L} (h : (system page caches).step s l = some s') :
    ∃ c, Acts (caches (page l.1)) (view page s l.1) l.2 c ∧ s' = put page s l.1 c := by
  obtain ⟨c, hact, hput⟩ := Option.map_eq_some_iff.1 h
  exact ⟨c, acts_of_act hact, hput.symm⟩

section Put

variable {i j : Nat} {c : View L}

@[simp] theorem view_put_self : view page (put page s i c) i = c := by
  simp [view, put]

/-- The other streams of the page see its entries. -/
theorem view_put_same (hj : j ≠ i) (hpage : page j = page i) :
    view page (put page s i c) j =
      { view page s j with urlEntry := c.urlEntry, genEntry := c.genEntry } := by
  simp [view, put, hj, hpage]

/-- The streams of other pages see nothing. -/
theorem view_put_other (hpage : page j ≠ page i) :
    view page (put page s i c) j = view page s j := by
  have hj : j ≠ i := fun heq => hpage (congrArg page heq)
  simp [view, put, hj, hpage]

end Put

/-! ## Where the links come from -/

/-- The links of a view are good. -/
structure Good (G : L → Prop) (c : View L) : Prop where
  urlEntry : ∀ link, c.urlEntry = some link → G link
  genEntry : ∀ link, c.genEntry = some link → G link
  phase : ∀ link, c.phase = .keeping link ∨ c.phase = .storing link → G link
  url : ∀ link, c.url = some link → G link

theorem Good.acts {gen : Bool} {G : L → Prop} {c c' : View L} {a : Action L} (h : Good G c)
    (ha : ∀ link, a = .answer (some link) → G link) (hacts : Acts gen c a c') : Good G c' := by
  have hphase : ∀ {phase : Phase L}, (∀ link, phase ≠ .keeping link ∧ phase ≠ .storing link) →
      Good G { c with phase := phase } := by
    intro phase hne
    refine { h with phase := fun link hor => ?_ }
    rcases hor with heq | heq
    · exact absurd heq (hne link).1
    · exact absurd heq (hne link).2
  have hlink : ∀ {phase : Phase L} {link : L}, G link →
      phase = .keeping link ∨ phase = .storing link → Good G { c with phase := phase } := by
    intro phase link hgood hor
    refine { h with phase := fun link' hor' => ?_ }
    rcases hor with rfl | rfl <;> rcases hor' with heq | heq <;> cases heq <;> exact hgood
  cases hacts with
  | refresh => exact hphase fun _ => by split <;> simp
  | remove =>
    have hnext : Good G { c with phase := .checking } := hphase fun _ => by simp
    exact { hnext with urlEntry := fun _ hsome => by cases hsome }
  | found | lost | forgotten | refused => exact hphase fun _ => by simp
  | missing => exact hphase fun _ => by split <;> simp
  | read _ hentry =>
    have hnext : Good G { c with phase := .idle } := hphase fun _ => by simp
    exact { hnext with url := fun _ hsome => h.urlEntry _ (hentry.trans hsome) }
  | generate => exact hphase fun _ => by split <;> simp
  | reuse _ hentry => exact hlink (h.genEntry _ hentry) (Or.inr rfl)
  | kept =>
    have hnext := hlink (ha _ rfl) (Or.inl rfl)
    exact { hnext with genEntry := fun _ hsome => Option.some.inj hsome ▸ ha _ rfl }
  | passed => exact hlink (ha _ rfl) (Or.inr rfl)
  | keep hkeeping =>
    have hgood := h.phase _ (Or.inl hkeeping)
    have hnext := hlink hgood (Or.inr rfl)
    exact { hnext with genEntry := fun _ hsome => Option.some.inj hsome ▸ hgood }
  | store hstoring =>
    have hgood := h.phase _ (Or.inr hstoring)
    have hnext : Good G { c with phase := .idle } := hphase fun _ => by simp
    exact { hnext with
      urlEntry := fun _ hsome => Option.some.inj hsome ▸ hgood
      url := fun _ hsome => Option.some.inj hsome ▸ hgood }

/-- Answers that are good for their pages keep all links good. -/
theorem good_step {G : κ → L → Prop} {l : Nat × Action L}
    (h : ∀ i, Good (G (page i)) (view page s i))
    (hl : ∀ link, l.2 = .answer (some link) → G (page l.1) link)
    (hstep : (system page caches).step s l = some s') (j : Nat) :
    Good (G (page j)) (view page s' j) := by
  obtain ⟨c, hacts, rfl⟩ := step_acts hstep
  have hc := (h l.1).acts hl hacts
  by_cases hj : j = l.1
  · subst hj
    rw [view_put_self]
    exact hc
  · by_cases hpage : page j = page l.1
    · rw [view_put_same hj hpage]
      have hold := h j
      rw [hpage] at hold ⊢
      exact { hold with urlEntry := hc.urlEntry, genEntry := hc.genEntry }
    · rw [view_put_other hpage]
      exact h j

/-- In every run, the link of a stream is one that the host has given, to this or to
another stream, for the stream's page. -/
theorem url_answered {ls : List (Nat × Action L)} {i : Nat} {link : L}
    (hs : (system page caches).init s) (hrun : (system page caches).run s ls = some s')
    (h : (s'.streams i).url = some link) :
    ∃ j, page j = page i ∧ (j, .answer (some link)) ∈ ls := by
  have hgood : ∀ (G : κ → L → Prop) (ls : List (Nat × Action L)) (s : State κ L),
      (∀ j link, (j, Action.answer (some link)) ∈ ls → G (page j) link) →
      (∀ i, Good (G (page i)) (view page s i)) → (system page caches).run s ls = some s' →
      ∀ i, Good (G (page i)) (view page s' i) := by
    intro G ls
    induction ls with
    | nil =>
      intro s _ hgood hrun
      rw [System.run_nil, Option.some.injEq] at hrun
      exact hrun ▸ hgood
    | cons l ls ih =>
      intro s hls hgood hrun
      obtain ⟨m, hm, hrest⟩ := System.run_cons_eq_some.1 hrun
      refine ih m (fun j link hmem => hls j link (List.mem_cons_of_mem _ hmem)) ?_ hrest
      apply good_step hgood _ hm
      intro link hl
      apply hls l.1 link
      rw [← hl]
      exact List.mem_cons_self
  have hstart : ∀ i, Good (fun _ => False) (view page s i) := by
    intro i
    have hempty := hs.1 (page i)
    have hidle := hs.2 i
    constructor <;> simp [view, hempty, hidle]
  have hlast := hgood (fun p link => ∃ j, page j = p ∧ (j, .answer (some link)) ∈ ls) ls s
    (fun j _ hmem => ⟨j, rfl, hmem⟩)
    (fun i => by
      have hnone := hstart i
      exact ⟨fun link hsome => (hnone.urlEntry link hsome).elim,
        fun link hsome => (hnone.genEntry link hsome).elim,
        fun link hor => (hnone.phase link hor).elim,
        fun link hsome => (hnone.url link hsome).elim⟩) hrun
  exact (hlast i).url link h

/-- All streams are of one page. -/
def onePage (_ : Nat) : Nat := 0

def empty : State Nat Nat := ⟨fun _ => none, fun _ => none, fun _ => ⟨.idle, none⟩⟩

theorem empty_init (caches : Nat → Bool) : (system onePage caches).init empty :=
  ⟨fun _ => ⟨rfl, rfl⟩, fun _ => rfl⟩

def firstRefresh : List (Nat × Action Nat) :=
  [(0, .refresh), (0, .check), (0, .answer (some 7)), (0, .store)]

theorem url_answered_firstRefresh :
    ∃ j, onePage j = onePage 0 ∧ (j, Action.answer (some 7)) ∈ firstRefresh :=
  url_answered (s := empty) (i := 0) (empty_init fun _ => false) rfl rfl

/-! ## Hosts with a cache -/

/-- No refresh of the page is under way. -/
def Quiet (page : Nat → κ) (s : State κ L) (p : κ) : Prop :=
  ∀ i, page i = p → (s.streams i).phase = .idle ∨ (s.streams i).phase = .failed

/-- Before the first `Remove` of a refresh. -/
def Phase.early : Phase L → Bool
  | .idle | .failed | .removing => true
  | _ => false

/-- With a link in `GenCache`, no host is asked, and the page's entry of `UrlCache` is that
link, or not read before it is removed. -/
structure Kept (g : L) (url : Option L) (c : View L) : Prop where
  genEntry : c.genEntry = some g
  asking : c.phase ≠ .asking
  keeping : ∀ link, c.phase ≠ .keeping link
  storing : ∀ link, c.phase = .storing link → link = g
  url : c.url = url ∨ c.url = some g
  entry : c.urlEntry = none ∨ c.urlEntry = some g ∨ c.phase.early = true

/-- The rest of a view that goes on to a phase in which nothing is known of a link. -/
theorem Kept.goto {g : L} {url : Option L} {c : View L} (h : Kept g url c) {phase : Phase L}
    (hphase : phase ≠ .asking ∧ ∀ link, phase ≠ .keeping link ∧ phase ≠ .storing link)
    (hentry : c.urlEntry = none ∨ c.urlEntry = some g ∨ phase.early = true) :
    Kept g url { c with phase := phase } where
  genEntry := h.genEntry
  asking := hphase.1
  keeping := fun link => (hphase.2 link).1
  storing := fun link heq => absurd heq (hphase.2 link).2
  url := h.url
  entry := hentry

/-- Behind the first `Remove` the entry is the link, if there is one. -/
theorem Kept.late {g : L} {url : Option L} {c : View L} (h : Kept g url c)
    (hlate : c.phase.early = false) : c.urlEntry = none ∨ c.urlEntry = some g := by
  rcases h.entry with hnone | hsome | hearly
  · exact Or.inl hnone
  · exact Or.inr hsome
  · rw [hlate] at hearly
    cases hearly

theorem Kept.acts {g : L} {url : Option L} {c c' : View L} {a : Action L} (h : Kept g url c)
    (hacts : Acts true c a c') :
    Kept g url c' ∧ (c'.urlEntry = none ∨ c'.urlEntry = some g ∨ c'.urlEntry = c.urlEntry) := by
  cases hacts with
  | refresh =>
    refine ⟨?_, Or.inr (Or.inr rfl)⟩
    by_cases hfound : c.urlEntry.isSome = true
    · rw [if_pos hfound]
      exact h.goto (by simp) (Or.inr (Or.inr rfl))
    · rw [if_neg hfound]
      exact h.goto (by simp) (Or.inl (by simpa using hfound))
  | remove =>
    have hnext : Kept g url { c with urlEntry := none } :=
      { h with entry := Or.inl rfl }
    exact ⟨hnext.goto (by simp) (Or.inl rfl), Or.inl rfl⟩
  | found hchecking hentry =>
    have hlate := h.late (by rw [hchecking]; rfl)
    exact ⟨h.goto (by simp) (hlate.imp_right Or.inl), Or.inr (Or.inr rfl)⟩
  | missing _ hentry => exact ⟨h.goto (by simp) (Or.inl hentry), Or.inl hentry⟩
  | read hreading hentry =>
    have hlate := h.late (by rw [hreading]; rfl)
    rw [hentry] at hlate
    have hlink := hlate.resolve_left (by simp)
    have hnext : Kept g url { c with url := c.urlEntry } :=
      { h with url := Or.inr (hentry.trans hlink) }
    rw [← hentry]
    exact ⟨hnext.goto (by simp) (Or.inr (Or.inr rfl)), Or.inr (Or.inr rfl)⟩
  | lost => exact ⟨h.goto (by simp) (Or.inr (Or.inr rfl)), Or.inr (Or.inr rfl)⟩
  | generate hgenerating =>
    have hlate := h.late (by rw [hgenerating]; rfl)
    rw [if_pos (by rw [h.genEntry]; rfl)]
    exact ⟨h.goto (by simp) (hlate.imp_right Or.inl), Or.inr (Or.inr rfl)⟩
  | reuse hreusing hentry =>
    have hlate := h.late (by rw [hreusing]; rfl)
    have hlink := Option.some.inj (hentry.symm.trans h.genEntry)
    refine ⟨⟨h.genEntry, by simp, by simp, fun link heq => ?_, h.url, hlate.imp_right Or.inl⟩,
      Or.inr (Or.inr rfl)⟩
    cases heq
    exact hlink
  | forgotten _ hentry =>
    rw [h.genEntry] at hentry
    cases hentry
  | refused hasking | kept hasking | passed hasking => exact absurd hasking h.asking
  | keep hkeeping => exact absurd hkeeping (h.keeping _)
  | store hstoring =>
    have hlink := h.storing _ hstoring
    subst hlink
    have hnext : Kept _ url { c with urlEntry := some _, url := some _ } :=
      { h with url := Or.inr rfl, entry := Or.inr (Or.inl rfl) }
    exact ⟨hnext.goto (by simp) (Or.inr (Or.inl rfl)), Or.inr (Or.inl rfl)⟩

/-- A stream that ends its refresh has the link, and it has not asked for it. -/
theorem Kept.ends {g : L} {url : Option L} {c c' : View L} {a : Action L} (h : Kept g url c)
    (hacts : Acts true c a c') :
    (∀ link, a ≠ .answer link) ∧ (c'.phase = .idle → c'.url = some g) := by
  cases hacts with
  | read hreading hentry =>
    refine ⟨by simp, fun _ => ?_⟩
    have hlate := h.late (by rw [hreading]; rfl)
    rw [hentry] at hlate
    exact hlate.resolve_left (by simp)
  | store hstoring => exact ⟨by simp, fun _ => congrArg some (h.storing _ hstoring)⟩
  | refused hasking | kept hasking | passed hasking => exact absurd hasking h.asking
  | refresh | missing | generate => exact ⟨by simp, by split <;> simp⟩
  | _ => exact ⟨by simp, by simp⟩

theorem kept_run {p : κ} {g : L} {ls : List (Nat × Action L)} (hcaches : caches p = true)
    (hquiet : Quiet page s p) (hgen : s.genCache p = some g)
    (hrun : (system page caches).run s ls = some s') :
    s'.genCache p = some g ∧
      ∀ i, page i = p → Kept g (s.streams i).url (view page s' i) := by
  have hstart : ∀ i, page i = p → Kept g (s.streams i).url (view page s i) := by
    intro i hi
    have hphase := hquiet i hi
    refine ⟨by rw [← hi] at hgen; exact hgen, ?_, ?_, ?_, Or.inl rfl, Or.inr (Or.inr ?_)⟩ <;>
      rcases hphase with hphase | hphase <;> simp [view, hphase, Phase.early]
  exact System.invariant_of_run (S := system page caches)
    (fun m => m.genCache p = some g ∧ ∀ i, page i = p → Kept g (s.streams i).url (view page m i))
    (fun m l m' hm hstep => by
      obtain ⟨c, hacts, rfl⟩ := step_acts hstep
      by_cases hpage : page l.1 = p
      · rw [hpage, hcaches] at hacts
        obtain ⟨hc, hentry⟩ := (hm.2 l.1 hpage).acts hacts
        refine ⟨?_, fun j hj => ?_⟩
        · show Function.update m.genCache (page l.1) c.genEntry p = some g
          rw [← hpage, Function.update_self]
          exact hc.genEntry
        · by_cases heq : j = l.1
          · subst heq
            rw [view_put_self]
            exact hc
          · rw [view_put_same heq (hj.trans hpage.symm)]
            have hold := hm.2 j hj
            have hshared : (view page m l.1).urlEntry = (view page m j).urlEntry := by
              show m.urlCache _ = m.urlCache _
              rw [hj, hpage]
            refine { hold with genEntry := hc.genEntry, entry := ?_ }
            rcases hentry with hnone | hsome | hsame
            · exact Or.inl hnone
            · exact Or.inr (Or.inl hsome)
            · rw [hsame, hshared]
              exact hold.entry
      · refine ⟨?_, fun j hj => ?_⟩
        · show Function.update m.genCache (page l.1) c.genEntry p = some g
          rw [Function.update_of_ne (Ne.symm hpage)]
          exact hm.1
        · rw [view_put_other fun heq => hpage (heq.symm.trans hj)]
          exact hm.2 j hj)
    ⟨hgen, hstart⟩ hrun

/-- Once a host that keeps its links has given one for a page, and no refresh of the page is
under way, it is not asked for the page again, and every later refresh of a stream of the
page that comes to its end has this link. -/
theorem link_kept {p : κ} {g : L} {ls : List (Nat × Action L)} (hcaches : caches p = true)
    (hquiet : Quiet page s p) (hgen : s.genCache p = some g)
    (hrun : (system page caches).run s ls = some s') :
    s'.genCache p = some g ∧
      (∀ i, page i = p →
        (s'.streams i).url = (s.streams i).url ∨ (s'.streams i).url = some g) ∧
      ∀ i a s'', page i = p → (system page caches).step s' (i, a) = some s'' →
        (∀ link, a ≠ .answer link) ∧
          ((s''.streams i).phase = .idle → (s''.streams i).url = some g) := by
  obtain ⟨hgen', hkept⟩ := kept_run hcaches hquiet hgen hrun
  refine ⟨hgen', fun i hi => (hkept i hi).url, fun i a s'' hi hstep => ?_⟩
  obtain ⟨c, hacts, rfl⟩ := step_acts hstep
  have hacts' : Acts (caches (page i)) (view page s' i) a c := hacts
  rw [hi, hcaches] at hacts'
  have hends := (hkept i hi).ends hacts'
  have hself : (put page s' i c).streams i = ⟨c.phase, c.url⟩ := Function.update_self ..
  rw [hself]
  exact hends

/-- A page with a link from before, and a stream with a link that does not work any more. -/
def held : State Nat Nat := ⟨fun _ => none, fun _ => some 7, fun _ => ⟨.idle, some 5⟩⟩

def nextRefresh : List (Nat × Action Nat) :=
  [(0, .refresh), (0, .check), (0, .generate), (0, .reuse)]

def refreshed : State Nat Nat :=
  ((system onePage fun _ => true).run held nextRefresh).getD held

theorem renews : (system onePage fun _ => true).run held nextRefresh = some refreshed := rfl

/-- The refresh ends with the link from before. -/
theorem link_kept_refreshed :
    refreshed.genCache 0 = some 7 ∧
      ((system onePage fun _ => true).step refreshed (0, .store)).map
        (fun s => (s.streams 0).url) = some (some 7) := by
  obtain ⟨hgen, -, hends⟩ :=
    link_kept (p := 0) (s := held) (g := 7) rfl (fun _ _ => Or.inl rfl) rfl renews
  obtain ⟨s', hstep⟩ := Option.isSome_iff_exists.1
    (show ((system onePage fun _ => true).step refreshed (0, .store)).isSome = true from rfl)
  have hidle : ((system onePage fun _ => true).step refreshed (0, .store)).map
      (fun s => (s.streams 0).phase) = some .idle := rfl
  rw [hstep, Option.map_some, Option.some_inj] at hidle
  rw [hstep, Option.map_some, (hends 0 .store s' rfl hstep).2 hidle]
  exact ⟨hgen, rfl⟩

/-! ## Links that are seen and read -/

/-- The entry that a stream has seen is still there. -/
def Served (page : Nat → κ) (s : State κ L) : Prop :=
  ∀ i, (s.streams i).phase = .reading → s.urlCache (page i) ≠ none

/-- A page is removed while no stream is about to read its entry. -/
def Orderly (page : Nat → κ) (s : State κ L) (l : Nat × Action L) : Prop :=
  l.2 = .remove → ∀ j, page j = page l.1 → (s.streams j).phase ≠ .reading

/-- Only `Remove` takes an entry away. -/
theorem Acts.serves {gen : Bool} {c c' : View L} {a : Action L} (h : Acts gen c a c') :
    (a = .remove ∧ c.phase = .removing ∧ c'.urlEntry = none ∧ c'.phase = .checking) ∨
      (a ≠ .remove ∧ (c'.urlEntry = none → c.urlEntry = none) ∧
        (c'.phase = .reading → c'.urlEntry ≠ none)) := by
  cases h with
  | remove hremoving => exact Or.inl ⟨rfl, hremoving, rfl, rfl⟩
  | found _ hentry => exact Or.inr ⟨by simp, id, fun _ => by simp [hentry]⟩
  | refresh | missing | generate => exact Or.inr ⟨by simp, id, by split <;> simp⟩
  | store => exact Or.inr ⟨by simp, by simp, by simp⟩
  | _ => exact Or.inr ⟨by simp, id, by simp⟩

theorem served_step {l : Nat × Action L} (h : Served page s)
    (hstep : (system page caches).step s l = some s') : Served page s' ↔ Orderly page s l := by
  obtain ⟨c, hacts, rfl⟩ := step_acts hstep
  have hself : ∀ j, (put page s l.1 c).streams j =
      if j = l.1 then ⟨c.phase, c.url⟩ else s.streams j :=
    fun j => Function.update_apply ..
  have hentry : ∀ p, (put page s l.1 c).urlCache p =
      if p = page l.1 then c.urlEntry else s.urlCache p := fun p => Function.update_apply ..
  unfold Served Orderly
  simp only [hself, hentry]
  rcases hacts.serves with ⟨haction, hremoving, hnone, hchecking⟩ | ⟨haction, hkeeps, hreading⟩
  · constructor
    · intro hserved _ j hpage hphase
      have hj : j ≠ l.1 := by
        intro heq
        rw [heq] at hphase
        exact absurd (hremoving.symm.trans hphase) (by simp)
      have hentry := hserved j (by rw [if_neg hj]; exact hphase)
      rw [if_pos hpage] at hentry
      exact hentry hnone
    · intro horderly j hphase
      by_cases hj : j = l.1
      · rw [if_pos hj, hchecking] at hphase
        cases hphase
      · rw [if_neg hj] at hphase
        rw [if_neg fun hpage => horderly haction j hpage hphase]
        exact h j hphase
  · refine iff_of_true (fun j hphase => ?_) fun hremove => absurd hremove haction
    by_cases hj : j = l.1
    · rw [if_pos hj] at hphase
      rw [if_pos (congrArg page hj)]
      exact hreading hphase
    · rw [if_neg hj] at hphase
      by_cases hpage : page j = page l.1
      · rw [if_pos hpage]
        intro hnone
        apply h j hphase
        rw [hpage]
        exact hkeeps hnone
      · rw [if_neg hpage]
        exact h j hphase

/-- In every run, a stream that has seen a link in the cache finds it there, all the time,
exactly if a page is removed only while no stream is about to read its entry. -/
theorem served_iff {ls : List (Nat × Action L)} (hs : (system page caches).init s)
    (hrun : (system page caches).run s ls = some s') :
    (system page caches).Along (Served page) s ls ↔
      (system page caches).StepsMeet (Orderly page) s ls := by
  have hstart : Served page s := by
    intro i hphase
    rw [hs.2 i] at hphase
    cases hphase
  exact System.along_of_step (fun _ => True) (Served page) (Orderly page)
    (fun _ _ _ _ _ => trivial) (fun _ _ _ _ hserved hstep => served_step hserved hstep)
    trivial hstart hrun

/-- The first stream removes the page between the look and the read of the second one. -/
def twoStreams : List (Nat × Action Nat) :=
  [(0, .refresh), (1, .refresh), (0, .check), (0, .answer (some 7)), (0, .store), (1, .check),
    (0, .refresh), (0, .remove), (1, .read)]

theorem served_iff_twoStreams :
    (system onePage fun _ => false).Along (Served onePage) empty twoStreams ↔
      (system onePage fun _ => false).StepsMeet (Orderly onePage) empty twoStreams :=
  served_iff (empty_init _) rfl

end DirectPackageInstaller.FileHostStream

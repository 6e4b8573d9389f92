import DirectPackageInstaller.Lib.LittleEndian
import DirectPackageInstaller.Lib.Patch
import DirectPackageInstaller.Others.Conversions

/-!
# The address in the payload

The payload finds the PC through a packed struct `Connection` in its image,
whose six bytes are all `0xB4` when it is built.  `EnsureClient` looks for them
and writes the address of the PC and the port of its listener over them.  The
payload copies the two fields into a `sockaddr_in`, which the kernel reads in
network order.

`ensureClient_reaches_iff`: the payload that is sent is the built one with the
listener's endpoint exactly if six bytes stand behind the struct and the
address is an IPv4 address.
-/

namespace DirectPackageInstaller.PayloadService

open LittleEndian Patch Search

/-! ## The PC -/

/-- What `IPAddress.GetAddressBytes` returns, for IPv4 or IPv6. -/
structure Address where
  bytes : List UInt8
  length : bytes.length = 4 ∨ bytes.length = 16

/-- How `EnsureClient` goes on with the payload. -/
inductive Patched
  /-- `IndexOf` throws. -/
  | threw
  /-- It returns false. -/
  | refused
  /-- It sends the payload. -/
  | sent (payload : List UInt8)
deriving DecidableEq, Repr

/-- `source.CopyTo(target, index)`; `none` is the exception for a target that
is too short. -/
def copyTo (source target : List UInt8) (index : Nat) : Option (List UInt8) :=
  if index + source.length ≤ target.length then some (overwrite source target index) else none

/-- The bytes of the port, `BitConverter.GetBytes(LocalPort).Reverse()`. -/
def portBytes (localPort : UInt16) : List UInt8 :=
  (bytes 2 localPort.toNat).reverse

/-- `EnsureClient`, for a client that is not running, with the address of the
PC and the port of the listener. -/
def ensureClient (payload : List UInt8) (ip : Address) (localPort : UInt16) : Patched :=
  match Conversions.indexOf payload Conversions.marker with
  | none => .threw
  | some offset =>
    if offset = -1 then .refused
    else
      match copyTo ip.bytes payload offset.toNat with
      | none => .refused
      | some payload =>
        match copyTo (portBytes localPort) payload (offset.toNat + 4) with
        | none => .refused
        | some payload => .sent payload

/-! ## The console -/

/-- The fields of `Connection`, in an image that has the struct at `place`. -/
structure ConnectionInfo where
  addr : Nat
  port : Nat
deriving DecidableEq, Repr

def connectionInfo (image : List UInt8) (place : Nat) : ConnectionInfo where
  addr := value (region image place 4)
  port := value (region image (place + 4) 2)

/-- The octets of `s_addr`, as they lie in memory. -/
def ConnectionInfo.octets (info : ConnectionInfo) : List UInt8 :=
  bytes 4 info.addr

/-- `ntohs(sin_port)`. -/
def ConnectionInfo.hostPort (info : ConnectionInfo) : Nat :=
  value (bytes 2 info.port).reverse

/-- The image is the built one, except that it connects to the listener. -/
structure Reaches (payload : List UInt8) (place : Nat) (ip : Address) (localPort : UInt16)
    (image : List UInt8) : Prop where
  length : image.length = payload.length
  octets : (connectionInfo image place).octets = ip.bytes
  port : (connectionInfo image place).hostPort = localPort.toNat
  rest : ∀ i, i < place ∨ place + 6 ≤ i → image[i]? = payload[i]?

/-! ## The two parties together -/

theorem length_region {l : List UInt8} {i count : Nat} (h : i + count ≤ l.length) :
    (region l i count).length = count := by
  simp [region]
  omega

theorem length_portBytes (localPort : UInt16) : (portBytes localPort).length = 2 := by
  simp [portBytes]

/-- The octets are the bytes at the place of the struct. -/
theorem octets_eq {image : List UInt8} {place : Nat} (h : place + 4 ≤ image.length) :
    (connectionInfo image place).octets = region image place 4 := by
  have hbytes := bytes_value (region image place 4)
  rw [length_region h] at hbytes
  exact hbytes

/-- The port that was written in network order. -/
theorem hostPort_eq {image : List UInt8} {place : Nat} {localPort : UInt16}
    (h : region image (place + 4) 2 = portBytes localPort) :
    (connectionInfo image place).hostPort = localPort.toNat := by
  have hbytes := bytes_value (portBytes localPort)
  rw [length_portBytes] at hbytes
  show value (bytes 2 (value (region image (place + 4) 2))).reverse = _
  rw [h, hbytes, portBytes, List.reverse_reverse]
  exact value_bytes_of_lt localPort.toNat_lt

/-- The marker is found at its first occurrence exactly if six bytes stand
behind it, and it is not found otherwise. -/
theorem indexOf_payload {payload : List UInt8} {place : Nat} (hlen : payload.length < 2 ^ 31)
    (hfirst : FirstAt Conversions.marker payload place) :
    Conversions.indexOf payload Conversions.marker =
      some (if place + 12 ≤ payload.length then (place : Int) else -1) := by
  split
  · rename_i hroom
    have hcorrect := (Conversions.indexOf_marker hlen).2 fun f hf => by
      rw [hf.unique hfirst]
      exact hroom
    exact hcorrect.1 place hfirst
  · rename_i hroom
    rcases Conversions.indexOf_finds (show Conversions.marker ≠ [] by decide) hlen with
      ⟨s, -, -, hocc⟩ | ⟨hnone, -⟩
    · have hscanned := (occursAt_take_iff (by decide)).1 hocc
      have hbehind : place ≤ s := by
        by_contra hlt
        exact hfirst.first s (by omega) hscanned.1
      have hsize : Conversions.marker.length = 6 := rfl
      omega
    · exact hnone

/-- An IPv4 address and the port fill the struct. -/
theorem ensureClient_ipv4 {payload : List UInt8} {place : Nat} {ip : Address}
    (localPort : UInt16)
    (hindex : Conversions.indexOf payload Conversions.marker = some (place : Int))
    (hroom : place + 6 ≤ payload.length) (hip : ip.bytes.length = 4) :
    ensureClient payload ip localPort =
      .sent (overwrite (ip.bytes ++ portBytes localPort) payload place) := by
  have hport := length_portBytes localPort
  have hne : (place : Int) ≠ -1 := by omega
  have hfirst : place + ip.bytes.length ≤ payload.length := by omega
  have hboth : overwrite (portBytes localPort) (overwrite ip.bytes payload place) (place + 4) =
      overwrite (ip.bytes ++ portBytes localPort) payload place := by
    rw [← hip]
    exact overwrite_overwrite (by omega)
  unfold ensureClient
  rw [hindex]
  simp only [hne, if_false, copyTo, Int.toNat_natCast]
  rw [if_pos hfirst]
  dsimp only
  rw [length_overwrite hfirst, if_pos (by omega), hboth]

/-- A payload with room behind the struct, for an IPv4 address. -/
theorem reaches_ipv4 {payload : List UInt8} {place : Nat} {ip : Address}
    (localPort : UInt16) (hroom : place + 6 ≤ payload.length) (hip : ip.bytes.length = 4) :
    Reaches payload place ip localPort
      (overwrite (ip.bytes ++ portBytes localPort) payload place) := by
  have hport := length_portBytes localPort
  have hsource : (ip.bytes ++ portBytes localPort).length = 6 := by
    rw [List.length_append]
    omega
  have hfit : place + (ip.bytes ++ portBytes localPort).length ≤ payload.length := by omega
  have hlen := length_overwrite hfit
  have hwritten := region_overwrite hfit
  rw [hsource] at hwritten
  refine ⟨hlen, ?_, ?_, fun i hi => ?_⟩
  · have htake : region (overwrite (ip.bytes ++ portBytes localPort) payload place) place 4 =
        (region (overwrite (ip.bytes ++ portBytes localPort) payload place) place 6).take 4 := by
      rw [region, region, List.take_take]
      rfl
    rw [octets_eq (by omega), htake, hwritten, ← hip, List.take_left]
  · apply hostPort_eq
    have hdrop : region (overwrite (ip.bytes ++ portBytes localPort) payload place)
        (place + 4) 2 = (region (overwrite (ip.bytes ++ portBytes localPort) payload place)
          place 6).drop 4 := by
      rw [region, region, List.drop_take, List.drop_drop]
    rw [hdrop, hwritten, ← hip, List.drop_left]
  · rw [getElem?_overwrite hfit, if_neg]
    omega

/-- The payload that `EnsureClient` sends is the built one with the endpoint of
the listener exactly if six bytes stand behind the struct and the PC's address
is an IPv4 address. -/
theorem ensureClient_reaches_iff {payload : List UInt8} {place : Nat}
    (hlen : payload.length < 2 ^ 31) (hfirst : FirstAt Conversions.marker payload place)
    (ip : Address) (localPort : UInt16) :
    (∃ image, ensureClient payload ip localPort = .sent image ∧
      Reaches payload place ip localPort image) ↔
      place + 12 ≤ payload.length ∧ ip.bytes.length = 4 := by
  have hindex := indexOf_payload hlen hfirst
  constructor
  · intro ⟨image, hsent, hreach⟩
    constructor
    · by_contra hroom
      rw [if_neg hroom] at hindex
      unfold ensureClient at hsent
      rw [hindex] at hsent
      cases hsent
    · have hoctets := congrArg List.length hreach.octets
      rw [ConnectionInfo.octets, length_bytes] at hoctets
      exact hoctets.symm
  · intro ⟨hroom, hip⟩
    rw [if_pos hroom] at hindex
    exact ⟨_, ensureClient_ipv4 localPort hindex (by omega) hip,
      reaches_ipv4 localPort (by omega) hip⟩

/-- A struct at the start of the image. -/
theorem ensureClient_reaches_start :
    ∃ image, ensureClient (Conversions.marker ++ List.replicate 6 0)
        ⟨[192, 168, 0, 2], Or.inl rfl⟩ 9898 = .sent image ∧
      Reaches (Conversions.marker ++ List.replicate 6 0) 0 ⟨[192, 168, 0, 2], Or.inl rfl⟩ 9898
        image :=
  (ensureClient_reaches_iff (by decide) (by decide) ⟨[192, 168, 0, 2], Or.inl rfl⟩ 9898).2
    ⟨by decide, rfl⟩

end DirectPackageInstaller.PayloadService

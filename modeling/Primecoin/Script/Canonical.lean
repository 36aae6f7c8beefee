import Primecoin.Script.SignatureHash
import Primecoin.Keys.Key
import Primecoin.Control.Except

/-!
# Canonical keys and signatures

`IsCanonicalSignature` checks the form of a signature: a DER sequence of two integers and the byte
of the hash type. The length bytes are offsets of later reads, so the order of the tests decides
whether a read is inside; one that is not is a fault here.

The form is stated on its own: `DerInteger` by what the bytes denote, `StrictSignature` by how the
signature is put together.
-/

namespace Primecoin

open Codec List

def byteAt (bytes : Bytes) (i : ℕ) : Except Failure UInt8 :=
  match bytes[i]? with
  | some byte => .ok byte
  | none => .error (.fault "read outside the vector")

def refuseIf (c : Prop) [Decidable c] (message : String) : Except Failure Unit :=
  if c then .error (.error message) else .ok ()

def isCanonicalPubKey (vchPubKey : Bytes) : Except Failure Unit := do
  refuseIf (vchPubKey.length < 33) "Non-canonical public key: too short"
  let first ← byteAt vchPubKey 0
  if first = 0x04 then
    refuseIf (vchPubKey.length ≠ 65) "Non-canonical public key: invalid length for uncompressed key"
  else if first = 0x02 ∨ first = 0x03 then
    refuseIf (vchPubKey.length ≠ 33) "Non-canonical public key: invalid length for compressed key"
  else .error (.error "Non-canonical public key: compressed nor uncompressed")

/-- The tests on one of the two integers, whose bytes start at the offset. -/
def checkInteger (name : String) (vchSig : Bytes) (offset nLen : ℕ) : Except Failure Unit := do
  let type ← byteAt vchSig (offset - 2)
  refuseIf (type ≠ 0x02) ("Non-canonical signature: " ++ name ++ " value type mismatch")
  refuseIf (nLen = 0) ("Non-canonical signature: " ++ name ++ " length is zero")
  let first ← byteAt vchSig offset
  refuseIf (first &&& 0x80 ≠ 0) ("Non-canonical signature: " ++ name ++ " value negative")
  if 1 < nLen ∧ first = 0x00 then
    let second ← byteAt vchSig (offset + 1)
    refuseIf (second &&& 0x80 = 0)
      ("Non-canonical signature: " ++ name ++ " value excessively padded")

variable (vchSig : Bytes)

def isCanonicalSignature : Except Failure Unit := do
  refuseIf (vchSig.length < 9) "Non-canonical signature: too short"
  refuseIf (73 < vchSig.length) "Non-canonical signature: too long"
  let last ← byteAt vchSig (vchSig.length - 1)
  let nHashType : Int32 := last.toUInt32.toInt32 &&& ~~~sighashAnyoneCanPay
  refuseIf (nHashType < sighashAll ∨ sighashSingle < nHashType)
    "Non-canonical signature: unknown hashtype byte"
  let type ← byteAt vchSig 0
  refuseIf (type ≠ 0x30) "Non-canonical signature: wrong type"
  let marker ← byteAt vchSig 1
  refuseIf (marker.toNat ≠ vchSig.length - 3) "Non-canonical signature: wrong length marker"
  let nLenR ← byteAt vchSig 3
  refuseIf (vchSig.length ≤ 5 + nLenR.toNat) "Non-canonical signature: S length misplaced"
  let nLenS ← byteAt vchSig (5 + nLenR.toNat)
  refuseIf (nLenR.toNat + nLenS.toNat + 7 ≠ vchSig.length)
    "Non-canonical signature: R+S length mismatch"
  checkInteger "R" vchSig 4 nLenR.toNat
  checkInteger "S" vchSig (6 + nLenR.toNat) nLenS.toNat

/-! ### The strict form -/

/-- A non-negative integer in two's complement, most significant byte first, that no shorter bytes
denote. -/
structure DerInteger (bytes : Bytes) : Prop where
  ne_nil : bytes ≠ []
  nonneg : bytes.headD 0 < 0x80
  minimal : ∀ shorter : Bytes, shorter.length < bytes.length → shorter ≠ [] →
    shorter.headD 0 < 0x80 → beNat shorter ≠ beNat bytes

def derElement (tag : UInt8) (contents : Bytes) : Bytes :=
  tag :: UInt8.ofNat contents.length :: contents

/-- A sequence of two integers and the byte of the hash type. -/
def StrictSignature : Prop :=
  9 ≤ vchSig.length ∧ vchSig.length ≤ 73 ∧
    ∃ r s hashType, DerInteger r ∧ DerInteger s ∧ hashType &&& 0x7f ∈ [(1 : UInt8), 2, 3] ∧
      vchSig = derElement 0x30 (derElement 0x02 r ++ derElement 0x02 s) ++ [hashType]

set_option maxRecDepth 4000 in
theorem and_high_eq_zero_iff (byte : UInt8) : byte &&& 0x80 = 0 ↔ byte < 0x80 := by
  revert byte
  decide

set_option maxRecDepth 4000 in
theorem baseType_iff (byte : UInt8) :
    ¬ (byte.toUInt32.toInt32 &&& ~~~sighashAnyoneCanPay < sighashAll ∨
      sighashSingle < byte.toUInt32.toInt32 &&& ~~~sighashAnyoneCanPay) ↔
      byte &&& 0x7f ∈ [(1 : UInt8), 2, 3] := by
  revert byte
  decide

theorem beNat_cons (first : UInt8) (rest : Bytes) :
    beNat (first :: rest) = first.toNat * 256 ^ rest.length + beNat rest := by
  suffices h : ∀ bytes : Bytes, leNat (bytes ++ [first]) =
      first.toNat * 256 ^ bytes.length + leNat bytes by
    rw [beNat, reverse_cons, h, length_reverse]
    rfl
  intro bytes
  induction bytes with
  | nil => simp [leNat]
  | cons b bytes ih =>
    rw [cons_append, leNat, ih, leNat, length_cons, pow_succ]
    ring

theorem beNat_lt_of_head {first : UInt8} (rest : Bytes) (h : first < 0x80) :
    beNat (first :: rest) < 0x80 * 256 ^ rest.length := by
  have hrest : beNat rest < 256 ^ rest.length := beNat_lt rfl
  have hfirst : first.toNat + 1 ≤ 0x80 := h
  calc beNat (first :: rest) = first.toNat * 256 ^ rest.length + beNat rest := beNat_cons first rest
    _ < (first.toNat + 1) * 256 ^ rest.length := by rw [Nat.add_mul]; omega
    _ ≤ 0x80 * 256 ^ rest.length := Nat.mul_le_mul_right _ hfirst

theorem derInteger_cons_iff {first : UInt8} {rest : Bytes} : DerInteger (first :: rest) ↔
      first < 0x80 ∧ ∀ second more, rest = second :: more → first = 0 → 0x80 ≤ second := by
  constructor
  · rintro ⟨-, hnonneg, hminimal⟩
    refine ⟨hnonneg, ?_⟩
    rintro second more rfl rfl
    by_contra hsecond
    refine hminimal (second :: more) (by simp) (by simp) (UInt8.not_le.mp hsecond) ?_
    simp [beNat_cons 0]
  · rintro ⟨hnonneg, hpadding⟩
    refine ⟨by simp, hnonneg, ?_⟩
    rintro (_ | ⟨head, tail⟩) hlen hne hhead heq
    · exact hne rfl
    cases rest with
    | nil => simp at hlen
    | cons second more =>
      have hlt : beNat (head :: tail) < _ := beNat_lt_of_head tail hhead
      have hle : 0x80 * 256 ^ tail.length ≤ 0x80 * 256 ^ more.length := by
        refine Nat.mul_le_mul_left _ (Nat.pow_le_pow_right (by decide) ?_)
        simp at hlen
        omega
      rw [heq, beNat_cons first, beNat_cons second, length_cons, pow_succ] at hlt
      by_cases hzero : first = 0
      · have hsecond : 0x80 ≤ second.toNat := hpadding second more rfl hzero
        have hmul := Nat.mul_le_mul_right (256 ^ more.length) hsecond
        omega
      · have hpos : 1 ≤ first.toNat := by
          rw [Nat.one_le_iff_ne_zero]
          intro h
          exact hzero (UInt8.toNat_inj.mp h)
        have hmul := Nat.mul_le_mul_right (256 ^ more.length * 256) hpos
        omega

section Check

theorem byteAt_eq_ok_iff {bytes : Bytes} {i : ℕ} {byte : UInt8} :
    byteAt bytes i = .ok byte ↔ bytes[i]? = some byte := by
  rw [byteAt]
  cases bytes[i]? with
  | none => simp
  | some b => simp

theorem refuseIf_eq_ok_iff {c : Prop} [Decidable c] {message : String} {u : Unit} :
    refuseIf c message = .ok u ↔ ¬ c := by
  rw [refuseIf]
  split_ifs with h <;> simp [h]

theorem checkInteger_iff {name : String} {before bytes after : Bytes} {tag len : UInt8} :
    checkInteger name (before ++ tag :: len :: (bytes ++ after)) (before.length + 2)
        bytes.length = .ok () ↔ tag = 0x02 ∧ DerInteger bytes := by
  have htag : (before ++ tag :: len :: (bytes ++ after))[before.length + 2 - 2]? = some tag := by
    simp
  simp only [checkInteger, Except.bind_eq_ok_iff, byteAt_eq_ok_iff, refuseIf_eq_ok_iff, htag]
  cases bytes with
  | nil =>
    simp only [length_nil, not_true_eq_false, false_and, and_false, exists_false, false_iff]
    exact fun h => h.2.ne_nil rfl
  | cons first rest =>
    have hfirst : (before ++ tag :: len :: (first :: rest ++ after))[before.length + 2]? =
        some first := by simp
    simp only [hfirst, Option.some.injEq, exists_eq_left', exists_const, length_cons,
      Nat.succ_ne_zero, not_false_eq_true, true_and, not_not, and_high_eq_zero_iff,
      derInteger_cons_iff]
    refine and_congr_right fun _ => and_congr_right fun _ => ?_
    cases rest with
    | nil => simp
    | cons second more =>
      have hsecond : (before ++ tag :: len :: (first :: second :: more ++ after))[
          before.length + 2 + 1]? = some second := by
        have hoffset : before.length + 2 + 1 - before.length = 3 := by omega
        rw [getElem?_append_right (by omega), hoffset]
        rfl
      by_cases hzero : first = 0
      · have hread := byteAt_eq_ok_iff.mpr hsecond
        rw [if_pos ⟨by simp, hzero⟩, hread, Except.ok_bind, refuseIf_eq_ok_iff, UInt8.not_lt]
        simp [hzero]
      · simp [hzero]

/-- The bytes of a signature as the tests find them. -/
def layout (type marker tagR lenR : UInt8) (r : Bytes) (tagS lenS : UInt8) (s : Bytes)
    (hashType : UInt8) : Bytes :=
  [type, marker] ++ tagR :: lenR :: (r ++ (tagS :: lenS :: (s ++ [hashType])))

theorem exists_layout {vchSig : Bytes} {m n : ℕ} (h : vchSig.length = m + n + 7) :
    ∃ type marker tagR lenR r tagS lenS s hashType, r.length = m ∧ s.length = n ∧
      vchSig = layout type marker tagR lenR r tagS lenS s hashType := by
  obtain ⟨type, marker, tagR, lenR, rest, rfl⟩ : ∃ type marker tagR lenR rest,
      vchSig = type :: marker :: tagR :: lenR :: rest := by
    match vchSig, h with
    | type :: marker :: tagR :: lenR :: rest, _ => exact ⟨type, marker, tagR, lenR, rest, rfl⟩
  simp only [length_cons] at h
  have hdrop : (rest.drop m).length = n + 3 := by
    rw [length_drop]
    omega
  obtain ⟨tagS, lenS, tail, htail⟩ : ∃ tagS lenS tail, rest.drop m = tagS :: lenS :: tail := by
    match rest.drop m, hdrop with
    | tagS :: lenS :: tail, _ => exact ⟨tagS, lenS, tail, rfl⟩
  rw [htail] at hdrop
  rcases eq_nil_or_concat tail with rfl | ⟨s, hashType, rfl⟩
  · simp at hdrop
  · refine ⟨type, marker, tagR, lenR, rest.take m, tagS, lenS, s, hashType, ?_, ?_, ?_⟩
    · exact length_take_of_le (by omega)
    · simp at hdrop
      omega
    · rw [layout, ← concat_eq_append, ← htail, take_append_drop]
      rfl

section Layout

variable {type marker tagR lenR tagS lenS hashType : UInt8} {r s : Bytes}

theorem length_layout : (layout type marker tagR lenR r tagS lenS s hashType).length =
    r.length + s.length + 7 := by
  simp [layout]
  omega

theorem getElem?_between {before after : Bytes} {byte : UInt8} {i : ℕ} (h : i = before.length) :
    (before ++ byte :: after)[i]? = some byte := by
  rw [h, getElem?_append_right le_rfl, Nat.sub_self]
  rfl

theorem layout_last : (layout type marker tagR lenR r tagS lenS s hashType)[
    r.length + s.length + 7 - 1]? = some hashType := by
  have hend : layout type marker tagR lenR r tagS lenS s hashType =
      (type :: marker :: tagR :: lenR :: (r ++ (tagS :: lenS :: s))) ++ [hashType] := by
    simp [layout]
  rw [hend]
  exact getElem?_between (by simp; omega)

theorem layout_lenS : (layout type marker tagR lenR r tagS lenS s hashType)[5 + r.length]? =
    some lenS := by
  have hsplit : layout type marker tagR lenR r tagS lenS s hashType =
      (type :: marker :: tagR :: lenR :: (r ++ [tagS])) ++ lenS :: (s ++ [hashType]) := by
    simp [layout]
  rw [hsplit]
  exact getElem?_between (by simp; omega)

theorem checkInteger_layout_R {u : Unit} :
    checkInteger "R" (layout type marker tagR lenR r tagS lenS s hashType) 4 r.length = .ok u ↔
      tagR = 0x02 ∧ DerInteger r := checkInteger_iff

theorem checkInteger_layout_S :
    checkInteger "S" (layout type marker tagR lenR r tagS lenS s hashType) (6 + r.length)
        s.length = .ok () ↔ tagS = 0x02 ∧ DerInteger s := by
  have hsplit : layout type marker tagR lenR r tagS lenS s hashType =
      (type :: marker :: tagR :: lenR :: r) ++ tagS :: lenS :: (s ++ [hashType]) := by
    simp [layout]
  have hoffset : 6 + r.length = (type :: marker :: tagR :: lenR :: r).length + 2 := by
    simp
    omega
  rw [hsplit, hoffset]
  exact checkInteger_iff

/-- The tests on bytes whose two integers have the announced lengths. -/
theorem isCanonicalSignature_layout_iff (hR : lenR.toNat = r.length) (hS : lenS.toNat = s.length) :
    isCanonicalSignature (layout type marker tagR lenR r tagS lenS s hashType) = .ok () ↔
      (9 ≤ r.length + s.length + 7 ∧ r.length + s.length + 7 ≤ 73) ∧
      hashType &&& 0x7f ∈ [(1 : UInt8), 2, 3] ∧ type = 0x30 ∧
      marker.toNat = r.length + s.length + 7 - 3 ∧ (tagR = 0x02 ∧ DerInteger r) ∧
      (tagS = 0x02 ∧ DerInteger s) := by
  have htype : (layout type marker tagR lenR r tagS lenS s hashType)[0]? = some type := rfl
  have hmarker : (layout type marker tagR lenR r tagS lenS s hashType)[1]? = some marker := rfl
  have hlenR : (layout type marker tagR lenR r tagS lenS s hashType)[3]? = some lenR := rfl
  simp only [isCanonicalSignature, Except.bind_eq_ok_iff, byteAt_eq_ok_iff, refuseIf_eq_ok_iff,
    length_layout, layout_last, htype, hmarker, hlenR, Option.some.injEq, exists_eq_left',
    exists_const, baseType_iff, hR, layout_lenS, hS, checkInteger_layout_R,
    checkInteger_layout_S, not_lt, not_le, not_not, ne_eq]
  constructor
  · rintro ⟨hmin, hmax, hbase, h30, hmark, -, -, hr, hs⟩
    exact ⟨⟨hmin, hmax⟩, hbase, h30, hmark, hr, hs⟩
  · rintro ⟨⟨hmin, hmax⟩, hbase, h30, hmark, hr, hs⟩
    exact ⟨hmin, hmax, hbase, h30, hmark, by omega, trivial, hr, hs⟩

theorem derElement_eq_layout :
    derElement 0x30 (derElement 0x02 r ++ derElement 0x02 s) ++ [hashType] =
      layout 0x30 (UInt8.ofNat (r.length + s.length + 7 - 3)) 0x02 (UInt8.ofNat r.length) r 0x02
        (UInt8.ofNat s.length) s hashType := by
  have hlen : (derElement 0x02 r ++ derElement 0x02 s).length = r.length + s.length + 7 - 3 := by
    simp [derElement]
    omega
  rw [derElement, hlen]
  simp [layout, derElement]

end Layout

theorem eq_ofNat_of_toNat {byte : UInt8} {n : ℕ} (h : byte.toNat = n) : byte = UInt8.ofNat n := by
  rw [← h, UInt8.ofNat_toNat]

theorem isCanonicalSignature_iff :
    isCanonicalSignature vchSig = .ok () ↔ StrictSignature vchSig := by
  constructor
  · intro h
    have hshape : ∃ lenR lenS : UInt8, vchSig[3]? = some lenR ∧
        vchSig[5 + lenR.toNat]? = some lenS ∧ vchSig.length = lenR.toNat + lenS.toNat + 7 := by
      simp only [isCanonicalSignature, Except.bind_eq_ok_iff, byteAt_eq_ok_iff,
        refuseIf_eq_ok_iff] at h
      obtain ⟨_, -, _, -, _, -, _, -, _, -, _, -, _, -, _, -, lenR, hlenR, _, -, lenS, hlenS, _,
        hlen, -⟩ := h
      exact ⟨lenR, lenS, hlenR, hlenS, (not_not.mp hlen).symm⟩
    obtain ⟨lenR, lenS, hlenR, hlenS, hlen⟩ := hshape
    obtain ⟨type, marker, tagR, lenR', r, tagS, lenS', s, hashType, hr, hs, rfl⟩ :=
      exists_layout hlen
    obtain rfl : lenR' = lenR := Option.some.inj hlenR
    rw [← hr, layout_lenS] at hlenS
    obtain rfl : lenS' = lenS := Option.some.inj hlenS
    obtain ⟨⟨hmin, hmax⟩, hbase, rfl, hmarker, ⟨rfl, hderR⟩, rfl, hderS⟩ :=
      (isCanonicalSignature_layout_iff hr.symm hs.symm).mp h
    rw [← length_layout] at hmin hmax
    refine ⟨hmin, hmax, r, s, hashType, hderR, hderS, hbase, ?_⟩
    rw [eq_ofNat_of_toNat hr.symm, eq_ofNat_of_toNat hs.symm, eq_ofNat_of_toNat hmarker]
    exact derElement_eq_layout.symm
  · rintro ⟨hmin, hmax, r, s, hashType, hderR, hderS, hbase, rfl⟩
    rw [derElement_eq_layout, length_layout] at hmin hmax
    have hbyte : ∀ n ≤ 73, (UInt8.ofNat n).toNat = n := fun n hn =>
      UInt8.toNat_ofNat_of_lt (by change n < 256; omega)
    rw [derElement_eq_layout, isCanonicalSignature_layout_iff (hbyte _ (by omega))
      (hbyte _ (by omega))]
    exact ⟨⟨hmin, hmax⟩, hbase, rfl, hbyte _ (by omega), ⟨rfl, hderR⟩, rfl, hderS⟩

/-! ### Reads inside -/

open Except

theorem byteAt_avoids {bytes : Bytes} {i : ℕ} (h : i < bytes.length) :
    Avoids Failure.isCrash (byteAt bytes i) := by
  rw [byteAt_eq_ok_iff.mpr (getElem?_eq_getElem h)]
  exact avoids_ok _

theorem refuseIf_avoids (c : Prop) [Decidable c] (message : String) :
    Avoids Failure.isCrash (refuseIf c message) :=
  Avoids.ite (fun _ => avoids_error rfl) fun _ => avoids_ok ()

theorem checkInteger_avoids {name : String} {vchSig : Bytes} {offset nLen : ℕ}
    (h : offset + nLen < vchSig.length) :
    Avoids Failure.isCrash (checkInteger name vchSig offset nLen) := by
  refine (byteAt_avoids (by omega)).bind fun _ _ => ?_
  refine (refuseIf_avoids _ _).bind fun _ _ => ?_
  refine (refuseIf_avoids _ _).bind fun _ hlen => ?_
  refine (byteAt_avoids (by omega)).bind fun _ _ => ?_
  refine (refuseIf_avoids _ _).bind fun _ _ => Avoids.ite (fun hlong => ?_) fun _ => avoids_ok ()
  exact (byteAt_avoids (by omega)).bind fun _ _ => refuseIf_avoids _ _

/-- Each length byte is compared with the size before it is used as an offset. -/
theorem isCanonicalSignature_avoids : Avoids Failure.isCrash (isCanonicalSignature vchSig) := by
  refine (refuseIf_avoids _ _).bind fun _ hmin => ?_
  rw [refuseIf_eq_ok_iff] at hmin
  refine (refuseIf_avoids _ _).bind fun _ _ => ?_
  refine (byteAt_avoids (by omega)).bind fun _ _ => ?_
  refine (refuseIf_avoids _ _).bind fun _ _ => ?_
  refine (byteAt_avoids (by omega)).bind fun _ _ => ?_
  refine (refuseIf_avoids _ _).bind fun _ _ => ?_
  refine (byteAt_avoids (by omega)).bind fun _ _ => ?_
  refine (refuseIf_avoids _ _).bind fun _ _ => ?_
  refine (byteAt_avoids (by omega)).bind fun nLenR _ => ?_
  refine (refuseIf_avoids _ _).bind fun _ hplace => ?_
  rw [refuseIf_eq_ok_iff] at hplace
  refine (byteAt_avoids (by omega)).bind fun nLenS _ => ?_
  refine (refuseIf_avoids _ _).bind fun _ hlen => ?_
  rw [refuseIf_eq_ok_iff] at hlen
  refine (checkInteger_avoids (by omega)).bind fun _ _ => ?_
  exact checkInteger_avoids (by omega)

end Check

/-- The canonical signatures are the strict ones, and the test reads no byte outside. -/
theorem isCanonicalSignature_spec (vchSig : Bytes) :
    (isCanonicalSignature vchSig = .ok () ↔ StrictSignature vchSig) ∧
      ∀ message, isCanonicalSignature vchSig ≠ .error (.fault message) := by
  refine ⟨isCanonicalSignature_iff vchSig, fun message h => ?_⟩
  cases isCanonicalSignature_avoids vchSig _ h

example : isCanonicalSignature [0x30, 6, 0x02, 1, 1, 0x02, 1, 1, 1] = .ok () := rfl

end Primecoin

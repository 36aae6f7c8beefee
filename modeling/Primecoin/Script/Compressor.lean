import Primecoin.Script.Op
import Primecoin.Serialize.Integer

/-!
# Compact scripts

Payments to a key hash, to a script hash and to a public key are written as a code below
`nSpecialScripts` and the 20 or 32 bytes that are not fixed; every other script as its length,
shifted past the codes, and its bytes.

An uncompressed public key loses its second coordinate up to the parity and gets it back from the
curve. `ECKeys` is what the compressor uses of the key library.
-/

namespace Primecoin

open Codec List Option

/-- `setPubKey` tests whether the bytes are a key, and `uncompressed` are the raw bytes of the key
once it has been set and marked as not compressed. A point is recovered from its first coordinate
and the parity of the second. -/
structure ECKeys where
  setPubKey : Bytes → Bool
  uncompressed : Bytes → Bytes
  recovers : ∀ x y : Bytes, x.length = 32 → y.length = 32 →
    setPubKey (4 :: (x ++ y)) = true → setPubKey ((2 ||| (y.getLastD 0 &&& 1)) :: x) = true ∧
        uncompressed ((2 ||| (y.getLastD 0 &&& 1)) :: x) = 4 :: (x ++ y)

namespace CScriptCompressor

def nSpecialScripts : ℕ := 6

def isToKeyID (script : CScript) : Option Bytes :=
  if script.length = 25 ∧ script.take 3 = [opDup, opHash160, 20] ∧
      script.drop 23 = [opEqualVerify, opCheckSig] then
    some ((script.drop 3).take 20)
  else none

def isToScriptID (script : CScript) : Option Bytes :=
  if script.length = 23 ∧ script.take 2 = [opHash160, 20] ∧ script.drop 22 = [opEqual] then
    some ((script.drop 2).take 20)
  else none

variable (keys : ECKeys) (script : CScript)

def isToPubKey : Option Bytes :=
  if script.length = 35 ∧ (script.take 2 = [33, 2] ∨ script.take 2 = [33, 3]) ∧
      script.drop 34 = [opCheckSig] then
    some ((script.drop 1).take 33)
  else if script.length = 67 ∧ script.take 2 = [65, 4] ∧ script.drop 66 = [opCheckSig] then
    -- an invalid key is not compressible
    if keys.setPubKey ((script.drop 1).take 65) then some ((script.drop 1).take 65) else none
  else none

/-- The code carries the parity of an uncompressed key. -/
def compressPubKey : Bytes → Option Bytes
  | [] => none
  | first :: coordinates =>
    if first = 2 ∨ first = 3 then some (first :: coordinates.take 32)
    else if first = 4 then
      some ((4 ||| (coordinates.getLastD 0 &&& 1)) :: coordinates.take 32)
    else none

def compress : Option Bytes :=
  match isToKeyID script with
  | some keyID => some (0 :: keyID)
  | none =>
    match isToScriptID script with
    | some scriptID => some (1 :: scriptID)
    | none => (isToPubKey keys script).bind compressPubKey

def getSpecialSize (nSize : ℕ) : ℕ :=
  if nSize = 0 ∨ nSize = 1 then 20
  else if nSize = 2 ∨ nSize = 3 ∨ nSize = 4 ∨ nSize = 5 then 32
  else 0

/-- `none` where it returns false and leaves the script alone. -/
def decompress (nSize : ℕ) (vch : Bytes) : Option CScript :=
  match nSize with
  | 0 => some ([opDup, opHash160, 20] ++ vch ++ [opEqualVerify, opCheckSig])
  | 1 => some ([opHash160, 20] ++ vch ++ [opEqual])
  | 2 => some ([33, 2] ++ vch ++ [opCheckSig])
  | 3 => some ([33, 3] ++ vch ++ [opCheckSig])
  | 4 | 5 =>
    let pubkey := UInt8.ofNat (nSize - 2) :: vch
    if keys.setPubKey pubkey then
      some (65 :: (keys.uncompressed pubkey).take 65 ++ [opCheckSig])
    else none
  | _ => none

def serialize : Bytes :=
  match compress keys script with
  | some compr => compr
  | none =>
    writeVarInt .uint32 ((script.length + nSpecialScripts) % 2 ^ 32 : ℕ) ++ script

/-- The sum with the size of the `VARINT` is returned as an `unsigned int`. -/
def getSerializeSize : UInt32 :=
  match compress keys script with
  | some compr => UInt32.ofNat compr.length
  | none =>
    UInt32.ofNat (script.length + getSizeOfVarInt ((script.length + nSpecialScripts) % 2 ^ 32 : ℕ))

/-- Reads into an empty script, as the callers do. -/
def unserialize : Reader UInt8 CScript := do
  let nSize ← readVarNat .uint32
  if nSize < nSpecialScripts then
    let vch ← take (getSpecialSize nSize)
    pure ((decompress keys nSize vch).getD [])
  else take (nSize - nSpecialScripts)

/-- The code of a special form, the bytes after it, and the script they stand for. -/
structure Special (keys : ECKeys) (script : CScript) (code : ℕ) (vch : Bytes) : Prop where
  code_lt : code < nSpecialScripts
  length : vch.length = getSpecialSize code
  decompress : decompress keys code vch = some script

section Special

variable {keys : ECKeys} {script : CScript}

theorem take_append_middle_append_drop {α : Type} (l : List α) (a n : ℕ) :
    l.take a ++ (l.drop a).take n ++ l.drop (a + n) = l := by
  rw [append_assoc, ← drop_drop, take_append_drop, take_append_drop]

theorem special_of_isToKeyID {keyID : Bytes} (h : isToKeyID script = some keyID) :
    Special keys script 0 keyID := by
  unfold isToKeyID at h
  split_ifs at h with hform
  obtain ⟨hlen, hhead, htail⟩ := hform
  obtain rfl := some.inj h
  refine ⟨by decide, ?_, ?_⟩
  · simp [getSpecialSize, hlen]
  · rw [decompress, ← hhead, ← htail]
    exact congrArg some (take_append_middle_append_drop script 3 20)

theorem special_of_isToScriptID {scriptID : Bytes} (h : isToScriptID script = some scriptID) :
    Special keys script 1 scriptID := by
  unfold isToScriptID at h
  split_ifs at h with hform
  obtain ⟨hlen, hhead, htail⟩ := hform
  obtain rfl := some.inj h
  refine ⟨by decide, ?_, ?_⟩
  · simp [getSpecialSize, hlen]
  · rw [decompress, ← hhead, ← htail]
    exact congrArg some (take_append_middle_append_drop script 2 20)

theorem special_of_compressed {first : UInt8} (hfirst : first = 2 ∨ first = 3)
    (hlen : script.length = 35) (hhead : script.take 2 = [33, first])
    (htail : script.drop 34 = [opCheckSig]) :
    Special keys script first.toNat ((script.drop 2).take 32) := by
  have hlength : ((script.drop 2).take 32).length = 32 := by simp [hlen]
  have hscript : [33, first] ++ (script.drop 2).take 32 ++ [opCheckSig] = script := by
    rw [← hhead, ← htail]
    exact take_append_middle_append_drop script 2 32
  rcases hfirst with rfl | rfl
  · exact ⟨by decide, hlength, congrArg some hscript⟩
  · exact ⟨by decide, hlength, congrArg some hscript⟩

theorem and_one_eq (b : UInt8) : b &&& 1 = 0 ∨ b &&& 1 = 1 := by
  have hbit : (b &&& 1).toNat = b.toNat % 2 := by
    rw [UInt8.toNat_and]
    exact Nat.and_one_is_mod b.toNat
  simp only [← UInt8.toNat_inj, hbit]
  exact Nat.mod_two_eq_zero_or_one b.toNat

theorem special_of_uncompressed {x y : Bytes} (hx : x.length = 32) (hy : y.length = 32)
    (hkey : keys.setPubKey (4 :: (x ++ y)) = true)
    (hscript : 65 :: 4 :: (x ++ y) ++ [opCheckSig] = script) :
    Special keys script (4 ||| (y.getLastD 0 &&& 1)).toNat x := by
  obtain ⟨hvalid, hraw⟩ := keys.recovers x y hx hy hkey
  have htake : (4 :: (x ++ y)).take 65 = 4 :: (x ++ y) :=
    take_of_length_le (by simp [hx, hy])
  rcases and_one_eq (y.getLastD 0) with hparity | hparity
  all_goals
    rw [hparity] at hvalid hraw ⊢
    refine ⟨by decide, hx, ?_⟩
    rw [← hscript, ← htake, ← hraw]
    exact if_pos hvalid

theorem take_drop_one {a b : UInt8} (h : script.take 2 = [a, b]) (n : ℕ) :
    (script.drop 1).take (n + 1) = b :: (script.drop 2).take n := by
  conv_lhs => rw [← take_append_drop 2 script, h]
  rfl

theorem compressPubKey_uncompressed {x y : Bytes} (hx : x.length = 32) (hy : y.length = 32) :
    compressPubKey (4 :: (x ++ y)) = some ((4 ||| (y.getLastD 0 &&& 1)) :: x) := by
  have hne : y ≠ [] := ne_nil_of_length_pos (by omega)
  have hlast : (x ++ y).getLastD 0 = y.getLastD 0 := by
    rw [getLastD_eq_getLast?, getLastD_eq_getLast?, getLast?_append_of_ne_nil x hne]
  have htake : (x ++ y).take 32 = x := by rw [← hx, take_left]
  rw [compressPubKey, if_neg (by decide), if_pos rfl, hlast, htake]

theorem special_of_isToPubKey {pubkey out : Bytes} (h : isToPubKey keys script = some pubkey)
    (hout : compressPubKey pubkey = some out) :
    ∃ code vch, out = UInt8.ofNat code :: vch ∧ Special keys script code vch := by
  unfold isToPubKey at h
  split_ifs at h with hshort hlong hvalid
  · obtain ⟨hlen, hhead, htail⟩ := hshort
    obtain ⟨first, hfirst, hhead⟩ : ∃ first : UInt8, (first = 2 ∨ first = 3) ∧
        script.take 2 = [33, first] := by
      rcases hhead with hhead | hhead
      · exact ⟨2, Or.inl rfl, hhead⟩
      · exact ⟨3, Or.inr rfl, hhead⟩
    rw [take_drop_one hhead 32, some.injEq] at h
    rw [← h, compressPubKey, if_pos hfirst, some.injEq, take_take, min_self] at hout
    refine ⟨first.toNat, _, ?_, special_of_compressed hfirst hlen hhead htail⟩
    rw [← hout, UInt8.ofNat_toNat]
  · obtain ⟨hlen, hhead, htail⟩ := hlong
    -- the two coordinates of the point
    have hsplit : (script.drop 2).take 64 =
        (script.drop 2).take 32 ++ (script.drop 34).take 32 := by
      rw [show 64 = 32 + 32 from rfl, take_add, drop_drop]
    have hx : ((script.drop 2).take 32).length = 32 := by simp [hlen]
    have hy : ((script.drop 34).take 32).length = 32 := by simp [hlen]
    have hscript := take_append_middle_append_drop script 2 64
    rw [hhead, htail, hsplit] at hscript
    rw [take_drop_one hhead 64, hsplit] at h hvalid
    rw [← some.inj h, compressPubKey_uncompressed hx hy, some.injEq] at hout
    refine ⟨_, _, ?_, special_of_uncompressed hx hy hvalid hscript⟩
    rw [← hout, UInt8.ofNat_toNat]

/-- Every special form reads back as the script it was made from. -/
theorem special_of_compress {out : Bytes} (h : compress keys script = some out) :
    ∃ code vch, out = UInt8.ofNat code :: vch ∧ Special keys script code vch := by
  unfold compress at h
  cases hkeyID : isToKeyID script with
  | some keyID =>
    rw [hkeyID] at h
    exact ⟨0, keyID, (some.inj h).symm, special_of_isToKeyID hkeyID⟩
  | none =>
    cases hscriptID : isToScriptID script with
    | some scriptID =>
      rw [hkeyID, hscriptID] at h
      exact ⟨1, scriptID, (some.inj h).symm, special_of_isToScriptID hscriptID⟩
    | none =>
      rw [hkeyID, hscriptID] at h
      obtain ⟨pubkey, hpubkey, hout⟩ := bind_eq_some_iff.mp h
      exact special_of_isToPubKey hpubkey hout

end Special

theorem readsBack_serialize {script : CScript} (h : script.length + nSpecialScripts < 2 ^ 32) :
    ReadsBack (unserialize keys) (serialize keys script) script := by
  unfold serialize
  cases hcompress : compress keys script with
  | some out =>
    obtain ⟨code, vch, rfl, hspecial⟩ := special_of_compress hcompress
    have hcode := hspecial.code_lt
    have hread := readsBack_readVarNat .uint32 (n := code) (by
      simp only [nSpecialScripts] at hcode
      simp only [IntType.max]
      omega)
    rw [writeVarInt_of_le .uint32 (by simp only [nSpecialScripts] at hcode; omega)] at hread
    refine hread.bind ?_
    rw [if_pos hcode, ← hspecial.length]
    have hvch := (ReadsBack.take vch).map fun vch => (decompress keys code vch).getD []
    rwa [hspecial.decompress] at hvch
  | none =>
    rw [Nat.mod_eq_of_lt h]
    refine (readsBack_readVarNat .uint32 ?_).bind ?_
    · simp only [IntType.max]
      omega
    · rw [if_neg (by omega), Nat.add_sub_cancel]
      exact ReadsBack.take script

theorem getSerializeSize_eq :
    getSerializeSize keys script = UInt32.ofNat (serialize keys script).length := by
  unfold getSerializeSize serialize
  cases compress keys script with
  | some compr => rfl
  | none =>
    simp only
    rw [length_append, length_writeVarInt .uint32 (by simp only [IntType.max]; omega), Nat.add_comm]

theorem length_serialize_le : (serialize keys script).length ≤ max 33 (script.length + 5) := by
  unfold serialize
  cases hcompress : compress keys script with
  | some out =>
    obtain ⟨code, vch, rfl, hspecial⟩ := special_of_compress hcompress
    have hvch : vch.length ≤ 32 := by
      rw [hspecial.length, getSpecialSize]
      split_ifs <;> omega
    rw [length_cons]
    omega
  | none =>
    have hsize : (writeVarInt .uint32 ((script.length + nSpecialScripts) % 2 ^ 32 : ℕ)).length ≤ 5 :=
      length_writeVarInt_le .uint32 _
    rw [length_append]
    omega

end CScriptCompressor

namespace Sample

def generatorX : Bytes :=
  (leBytes 32 0x79be667ef9dcbbac55a06295ce870b07029bfcdb2dce28d959f2815b16f81798).reverse

def generatorY : Bytes :=
  (leBytes 32 0x483ada7726a3c4655da4fbfc0e1108a8fd17b448a68554199c47d08ffb10d4b8).reverse

/-- The generator of the curve is the only key. -/
def keys : ECKeys where
  setPubKey vch := vch = 4 :: (generatorX ++ generatorY) ∨ vch = 2 :: generatorX
  uncompressed vch := if vch = 2 :: generatorX then 4 :: (generatorX ++ generatorY) else vch
  recovers x y hx _ hkey := by
    rw [decide_eq_true_iff] at hkey
    rcases hkey with hkey | hkey
    · obtain ⟨rfl, rfl⟩ := append_inj (cons.inj hkey).2 hx
      exact ⟨by decide, by decide⟩
    · cases (cons.inj hkey).1

def payGenerator : CScript := 65 :: 4 :: (generatorX ++ generatorY) ++ [opCheckSig]

end Sample

end Primecoin

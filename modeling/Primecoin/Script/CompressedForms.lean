import Primecoin.Script.Compressor
import Primecoin.Codec.PrefixCode

/-!
# The forms of a compressed script

A compressed script starts with a number: a code below `nSpecialScripts` for a special form, and
the length shifted past the codes for the generic one. The length is an `unsigned int`, so the
shifted length of a script of `2 ^ 32 - 6` bytes or more is a small number again, which stands for
another form.
-/

namespace Primecoin

open Option
namespace CScriptCompressor

open Codec

variable {keys : ECKeys} {script : CScript}

theorem Special.length_le {code : ℕ} {vch : Bytes} (h : Special keys script code vch) :
    script.length ≤ 67 := by
  obtain ⟨-, hlen, hscript⟩ := h
  have hvch : vch.length ≤ 32 := by
    rw [hlen, getSpecialSize]
    split_ifs <;> decide
  unfold CScriptCompressor.decompress at hscript
  split at hscript
  case h_5 | h_6 =>
    dsimp only at hscript
    split_ifs at hscript
    obtain rfl := some.inj hscript
    simp
    omega
  case h_7 => cases hscript
  all_goals
    obtain rfl := some.inj hscript
    simp
    omega

/-- The number in front tells the special forms from the generic one. -/
theorem readVarNat_serialize (keys : ECKeys) (h : script.length + nSpecialScripts < 2 ^ 32) :
    ∃ nSize rest, readVarNat .uint32 (serialize keys script) = some (nSize, rest) ∧
      (nSize < nSpecialScripts ↔ (compress keys script).isSome = true) := by
  cases hcompress : compress keys script with
  | some out =>
    obtain ⟨code, vch, rfl, hspecial⟩ := special_of_compress hcompress
    have hcode := hspecial.code_lt
    have hsmall : code ≤ 0x7F := by
      simp only [nSpecialScripts] at hcode
      omega
    have hread := readsBack_readVarNat .uint32 (n := code) (by simp only [IntType.max]; omega) vch
    rw [writeVarInt_of_le .uint32 hsmall] at hread
    exact ⟨code, vch, by rw [serialize, hcompress]; exact hread, by simp [hcode]⟩
  | none =>
    have hread := readsBack_readVarNat .uint32 (n := script.length + nSpecialScripts)
      (by simp only [IntType.max]; omega) script
    refine ⟨script.length + nSpecialScripts, script, ?_, by simp⟩
    rw [serialize, hcompress, Nat.mod_eq_of_lt h]
    exact hread

/-- A script comes back exactly if its shifted length is an `unsigned int`. -/
theorem readsBack_serialize_iff : ReadsBack (unserialize keys) (serialize keys script) script ↔
      script.length + nSpecialScripts < 2 ^ 32 := by
  refine ⟨fun h => ?_, readsBack_serialize keys⟩
  by_contra hlong
  have hgeneric : compress keys script = none := by
    rw [eq_none_iff_forall_ne_some]
    intro out hout
    obtain ⟨code, vch, -, hspecial⟩ := special_of_compress hout
    have hle := hspecial.length_le
    simp only [nSpecialScripts] at hlong
    omega
  have hmod := Nat.mod_lt (script.length + nSpecialScripts) (show 0 < 2 ^ 32 by norm_num)
  have hread := readsBack_readVarNat .uint32 (n := (script.length + nSpecialScripts) % 2 ^ 32)
    (by simp only [IntType.max]; omega) script
  have hback := h []
  rw [serialize, hgeneric, List.append_nil] at hback
  generalize (script.length + nSpecialScripts) % 2 ^ 32 = nSize at hmod hread hback
  have hunserialize : unserialize keys (writeVarInt .uint32 (nSize : ℕ) ++ script) =
      (if nSize < nSpecialScripts then do
        let vch ← take (getSpecialSize nSize)
        pure ((decompress keys nSize vch).getD [])
      else take (nSize - nSpecialScripts) : Reader UInt8 CScript) script := by
    rw [unserialize]
    change (readVarNat .uint32 _).bind _ = _
    rw [hread]
    rfl
  have hsize : getSpecialSize nSize ≤ 32 := by
    rw [getSpecialSize]
    split_ifs <;> decide
  simp only [nSpecialScripts] at hlong
  -- either way bytes of the script are left
  have hleft : ∃ n, script.drop n = [] ∧ n < script.length := by
    simp only at hback
    rw [hunserialize] at hback
    split_ifs at hback with hspecial
    · change (take (getSpecialSize nSize) script).bind _ = _ at hback
      rw [take, if_pos (by omega)] at hback
      exact ⟨_, (Prod.mk.inj (some.inj hback)).2, by omega⟩
    · rw [take, if_pos (by simp only [nSpecialScripts]; omega)] at hback
      exact ⟨_, (Prod.mk.inj (some.inj hback)).2, by simp only [nSpecialScripts]; omega⟩
  obtain ⟨n, hdrop, hn⟩ := hleft
  rw [List.drop_eq_nil_iff] at hdrop
  omega

/-- A script whose shifted length is an `unsigned int` comes back, its size is the number of bytes
written, the number in front tells the special forms from the generic one, and no compressed
script is the beginning of another. -/
theorem compressed_forms (keys : ECKeys) {script : CScript}
    (h : script.length + nSpecialScripts < 2 ^ 32) :
    ReadsBack (unserialize keys) (serialize keys script) script ∧
      (getSerializeSize keys script).toNat = (serialize keys script).length ∧
      (∃ nSize rest, readVarNat .uint32 (serialize keys script) = some (nSize, rest) ∧
        (nSize < nSpecialScripts ↔ (compress keys script).isSome = true)) ∧
      ∀ other : CScript, other.length + nSpecialScripts < 2 ^ 32 →
        serialize keys other <+: serialize keys script → other = script := by
  refine ⟨readsBack_serialize keys h, ?_, readVarNat_serialize keys h, ?_⟩
  · rw [getSerializeSize_eq]
    have hle := length_serialize_le keys script
    simp only [nSpecialScripts] at h
    exact UInt32.toNat_ofNat_of_lt' (hle.trans_lt (show _ < 2 ^ 32 by omega))
  · intro other hother hextends
    have hunambiguous : Unambiguous (serialize keys) fun script =>
        List.length script + nSpecialScripts < 2 ^ 32 :=
      Unambiguous.of_readsBack fun _ hscript => readsBack_serialize keys hscript
    exact hunambiguous.eq_of_extends hother h hextends

theorem compressed_forms_payGenerator :
    ReadsBack (unserialize Sample.keys) (serialize Sample.keys Sample.payGenerator)
        Sample.payGenerator ∧
      (serialize Sample.keys Sample.payGenerator).length = 33 :=
  ⟨(compressed_forms Sample.keys (by decide)).1, by decide⟩

/-- With `2 ^ 32 - 6` bytes the number in front is the code of a payment to a key hash. -/
theorem not_readsBack_wrapped : ¬ ReadsBack (unserialize Sample.keys)
      (serialize Sample.keys (List.replicate (2 ^ 32 - 6) 0)) (List.replicate (2 ^ 32 - 6) 0) := by
  rw [readsBack_serialize_iff, List.length_replicate]
  decide

end CScriptCompressor

end Primecoin

import Primecoin.Basic

/-!
# Salvaging a database file

`CDBEnv::Salvage` reads the lines that `Db::verify` dumps. The loop over the records goes on up to
the line `DATA=END`, but the line that it does not take for a key is `DATA_END`.
-/

namespace Primecoin

open List

/-- The table has -1 where there is none. -/
def phexdigit (c : Char) : Option UInt8 :=
  if '0' ≤ c ∧ c ≤ '9' then some (c.val - 48).toUInt8
  else if 'A' ≤ c ∧ c ≤ 'F' then some (c.val - 55).toUInt8
  else if 'a' ≤ c ∧ c ≤ 'f' then some (c.val - 87).toUInt8
  else none

def isspace (c : Char) : Bool := c = ' ' ∨ '\t' ≤ c ∧ c ≤ '\r'

def parseHex : List Char → Bytes
  | [] => []
  | c :: psz =>
    if isspace c then parseHex psz
    else
      match phexdigit c, psz with
      | some n, d :: psz =>
        match phexdigit d with
        | some c => (n <<< 4 ||| c) :: parseHex psz
        | none => []
      | _, _ => []

/-- What `Db::verify` returns: 0, `DB_VERIFY_BAD` or another error. -/
inductive VerifyResult
  | ok
  | bad
  | failed
  deriving DecidableEq

def skipHeader : List String → List String
  | [] => []
  | strLine :: strDump => if strLine = "HEADER=END" then strDump else skipHeader strDump

/-- The loop over the records. At the end of the stream `valueHex` stays as it was. -/
def salvageRecords (valueHex : String) : List String → List (Bytes × Bytes)
  | [] => []
  | [keyHex] =>
    if keyHex = "DATA_END" then [] else [(parseHex keyHex.toList, parseHex valueHex.toList)]
  | keyHex :: strLine :: strDump =>
    if keyHex = "DATA_END" then salvageRecords valueHex (strLine :: strDump)
    else (parseHex keyHex.toList, parseHex strLine.toList) ::
      if keyHex = "DATA=END" then [] else salvageRecords strLine strDump

def salvage (result : VerifyResult) (fAggressive : Bool) (strDump : List String)
    (vResult : List (Bytes × Bytes)) : Bool × List (Bytes × Bytes) :=
  if result = .failed ∨ result = .bad ∧ fAggressive = false then (false, vResult)
  else (result = .ok, vResult ++ salvageRecords "" (skipHeader strDump))

def isHexLine (strLine : String) : Bool :=
  strLine.toList.all fun c => isspace c || (phexdigit c).isSome

/-- A dump as the comment in `Salvage` describes it. -/
structure SalvageDump where
  header : List String
  notMem_header : "HEADER=END" ∉ header
  records : List (String × String)
  hex : ∀ record ∈ records, isHexLine record.1 ∧ isHexLine record.2
  /-- What follows `DATA=END`: an empty line if there is a newline. -/
  fNewline : Bool

def SalvageDump.lines (dump : SalvageDump) : List String :=
  dump.header ++ "HEADER=END" :: (dump.records.flatMap (fun record => [record.1, record.2]) ++
    "DATA=END" :: if dump.fNewline then [""] else [])

theorem skipHeader_append {header : List String} (h : "HEADER=END" ∉ header)
    (strDump : List String) : skipHeader (header ++ "HEADER=END" :: strDump) = strDump := by
  induction header with
  | nil => exact if_pos rfl
  | cons strLine header ih =>
    rw [mem_cons, not_or] at h
    rw [cons_append, skipHeader, if_neg (Ne.symm h.1), ih h.2]

/-- The records are read one after the other, and with the last value the loop goes on. -/
theorem length_salvageRecords {records : List (String × String)}
    (hhex : ∀ record ∈ records, isHexLine record.1 ∧ isHexLine record.2)
    (fNewline : Bool) (valueHex : String) :
    (salvageRecords valueHex (records.flatMap (fun record => [record.1, record.2]) ++
      "DATA=END" :: if fNewline then [""] else [])).length = records.length + 1 := by
  induction records generalizing valueHex with
  | nil => cases fNewline <;> rfl
  | cons record records ih =>
    have hkey := (hhex record mem_cons_self).1
    have hend : record.1 ≠ "DATA_END" := fun heq => absurd (heq ▸ hkey) (by decide)
    have hdata : record.1 ≠ "DATA=END" := fun heq => absurd (heq ▸ hkey) (by decide)
    have hrest := ih (fun record hrecord => hhex record (mem_cons_of_mem _ hrecord)) record.2
    rw [flatMap_cons, cons_append, cons_append, singleton_append, cons_append, salvageRecords,
      if_neg hend, if_neg hdata, length_cons, hrest, length_cons]

/-- Whatever the lines stand for, a dump that is read gives one record too many. -/
theorem salvage_iff (dump : SalvageDump) (bytes : String → Bytes) (result : VerifyResult)
    (fAggressive : Bool) (vResult : List (Bytes × Bytes)) :
    (salvage result fAggressive dump.lines vResult).2 =
        vResult ++ dump.records.map (fun record => (bytes record.1, bytes record.2)) ↔
      dump.records = [] ∧ (result = .failed ∨ result = .bad ∧ fAggressive = false) := by
  rw [salvage]
  split_ifs with hearly
  · simp [hearly]
  · have hlength := length_salvageRecords dump.hex dump.fNewline ""
    rw [SalvageDump.lines, skipHeader_append dump.notMem_header, append_cancel_left_eq]
    refine ⟨fun heq => ?_, fun h => absurd h.2 hearly⟩
    rw [heq, length_map] at hlength
    omega

def walletDump : SalvageDump :=
  ⟨["VERSION=3", "format=bytevalue"], by decide, [(" 01", " 02ff")], by decide, true⟩

/-- The line `DATA=END` becomes a record with the key that its first two letters stand for. -/
theorem salvage_walletDump :
    salvage .ok true walletDump.lines [] = (true, [([1], [2, 0xff]), ([0xda], [])]) := by
  decide +kernel

end Primecoin

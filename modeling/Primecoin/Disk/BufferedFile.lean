import Primecoin.Basic
import Primecoin.Codec.Ring

/-!
# Buffered files

`CBufferedFile` reads a file through a ring buffer and can be set back. The reader may be behind
what has been read from the file; `SetPos` compares a position with the latter, so that how far
the reader can go back depends on how much has been read ahead.

What has been read is below the length of the file, so only the arguments of `SetPos` can make a
`uint64` wrap.
-/

namespace Primecoin

open Codec List

/-- The file, the size of the buffer and how far it must be possible to rewind. -/
structure BufferedSource where
  src : Bytes
  nBufSize : ℕ
  nRewind : ℕ
  nRewind_lt : nRewind < nBufSize
  nBufSize_lt : nBufSize < 2 ^ 32
  length_lt : src.length < 2 ^ 63

/-- The size of an object in memory. -/
abbrev ObjectSize := Fin (2 ^ 63)

/-- The answers of `fread` by the position in the file: at most as many bytes as were asked for
and are there. None is the end of the file or an error. -/
structure FRead where
  count : ℕ → ℕ → ℕ
  count_le : ∀ nPos n, count nPos n ≤ n

/-- `fread` does not fail before the end of the file. -/
def FRead.Delivers (fread : FRead) : Prop := ∀ nPos n, 0 < n → 0 < fread.count nPos n

/-- `fFail` is the `failbit` of the stream. -/
structure CBufferedFile where
  nSrcPos : ℕ
  nReadPos : ℕ
  nReadLimit : UInt64
  vchBuf : Bytes
  fFail : Bool
  deriving DecidableEq, Repr

namespace CBufferedFile

variable (source : BufferedSource)

def new : CBufferedFile := ⟨0, 0, -1, List.replicate source.nBufSize 0, false⟩

variable (fread : FRead) (file : CBufferedFile)

def fill : Except Failure Bool × CBufferedFile :=
  let pos := file.nSrcPos % source.nBufSize
  let nAvail := source.nBufSize - (file.nSrcPos - file.nReadPos) - source.nRewind
  let readNow := min (source.nBufSize - pos) nAvail
  if readNow = 0 then (.ok false, file)
  else
    let read := fread.count file.nSrcPos (min readNow (source.src.length - file.nSrcPos))
    if read = 0 then
      (.error (.exception (if file.nSrcPos < source.src.length then
        "CBufferedFile::Fill : fread failed" else "CBufferedFile::Fill : end of file")),
        { file with fFail := true })
    else
      (.ok true, { file with
        vchBuf := overwrite file.vchBuf pos ((source.src.drop file.nSrcPos).take read)
        nSrcPos := file.nSrcPos + read })

def fillIfRead : Except Failure Bool × CBufferedFile :=
  if file.nReadPos = file.nSrcPos then fill source fread file else (.ok true, file)

def nNow (nSize : ℕ) : ℕ :=
  let pos := file.nReadPos % source.nBufSize
  let nNow := if source.nBufSize < nSize + pos then source.nBufSize - pos else nSize
  if file.nSrcPos < nNow + file.nReadPos then file.nSrcPos - file.nReadPos else nNow

theorem nNow_le (nSize : ℕ) : nNow source file nSize ≤ nSize := by
  simp only [nNow]
  split_ifs <;> omega

/-- The loop in `read`, with the bytes copied so far. A turn that copies nothing would be repeated
for ever. -/
def readLoop (fread : FRead) (nSize : ℕ) (pch : Bytes) (file : CBufferedFile) :
    Except Failure Bytes × CBufferedFile :=
  if nSize = 0 then (.ok pch, file)
  else
    match fillIfRead source fread file with
    | (.error e, file) => (.error e, file)
    | (.ok _, file) =>
      if nNow source file nSize = 0 then (.error (.fault "nNow == 0"), file)
      else
        readLoop fread (nSize - nNow source file nSize)
          (pch ++ (file.vchBuf.drop (file.nReadPos % source.nBufSize)).take
            (nNow source file nSize))
          { file with nReadPos := file.nReadPos + nNow source file nSize }
termination_by nSize

def read (nSize : ObjectSize) (file : CBufferedFile) : Except Failure Bytes × CBufferedFile :=
  if file.nReadLimit.toNat < nSize + file.nReadPos then
    (.error (.exception "Read attempted past buffer limit"), file)
  else if source.nBufSize < nSize + source.nRewind then
    (.error (.exception "Read larger than buffer size"), file)
  else readLoop source fread nSize [] file

def setPos (nPos : UInt64) (file : CBufferedFile) : Bool × CBufferedFile :=
  if (nPos.toNat + source.nRewind) % 2 ^ 64 < file.nSrcPos then
    (false, { file with nReadPos := (2 ^ 64 + file.nSrcPos - source.nRewind) % 2 ^ 64 })
  else if file.nSrcPos < nPos.toNat then (false, { file with nReadPos := file.nSrcPos })
  else (true, { file with nReadPos := nPos.toNat })

def setLimit (nPos : UInt64) (file : CBufferedFile) : Bool × CBufferedFile :=
  if nPos.toNat < file.nReadPos then (false, file) else (true, { file with nReadLimit := nPos })

/-- The loop in `FindByte`, with the bytes left behind the reader. At the end of the file `Fill`
throws, so it does not run out of them. -/
def findByteLoop (fread : FRead) (ch : UInt8) :
    ℕ → CBufferedFile → Except Failure Unit × CBufferedFile
  | nLeft, file =>
    match fillIfRead source fread file with
    | (.error e, file) => (.error e, file)
    | (.ok _, file) =>
      if file.vchBuf[file.nReadPos % source.nBufSize]? = some ch then (.ok (), file)
      else
        match nLeft with
        | 0 => (.error (.fault "nReadPos >= size of the file"), file)
        | nLeft + 1 =>
          findByteLoop fread ch nLeft { file with nReadPos := file.nReadPos + 1 }

def findByte (ch : UInt8) (file : CBufferedFile) : Except Failure Unit × CBufferedFile :=
  findByteLoop source fread ch (source.src.length - file.nReadPos) file

end CBufferedFile

inductive BufferedCall
  | read (fread : FRead) (nSize : ObjectSize)
  | findByte (fread : FRead) (ch : UInt8)
  | setLimit (nPos : UInt64)
  | setPos (nPos : UInt64)

/-- A position that does not wrap when `nRewind` is added. -/
def BufferedCall.Fits (source : BufferedSource) : BufferedCall → Prop
  | .setPos nPos => nPos.toNat + source.nRewind < 2 ^ 64
  | .read .. | .findByte .. | .setLimit .. => True

namespace CBufferedFile

variable (source : BufferedSource)

def step (file : CBufferedFile) : BufferedCall → CBufferedFile
  | .read fread nSize => (read source fread nSize file).2
  | .findByte fread ch => (findByte source fread ch file).2
  | .setLimit nPos => (setLimit nPos file).2
  | .setPos nPos => (setPos source nPos file).2

def run (calls : List BufferedCall) : CBufferedFile := calls.foldl (step source) (new source)

def readMany : List (FRead × ObjectSize) → CBufferedFile → Except Failure Bytes × CBufferedFile
  | [], file => (.ok [], file)
  | (fread, nSize) :: rest, file =>
    match read source fread nSize file with
    | (.error e, file) => (.error e, file)
    | (.ok bytes, file) =>
      match readMany rest file with
      | (.error e, file) => (.error e, file)
      | (.ok more, file) => (.ok (bytes ++ more), file)

def total (reads : List (FRead × ObjectSize)) : ℕ := (reads.map fun r => r.2.val).sum

theorem total_cons (fread : FRead) (nSize : ObjectSize) (reads : List (FRead × ObjectSize)) :
    total ((fread, nSize) :: reads) = nSize + total reads := by
  rw [total, map_cons, sum_cons]
  rfl

/-- From here on the reader gets the bytes of the file from `nPos` on: what returns is right, and
it returns if the limit and the file allow it. -/
def ReadsFrom (nPos : ℕ) (file : CBufferedFile) : Prop :=
  ∀ reads, (∀ bytes file', readMany source reads file = (.ok bytes, file') →
      bytes = (source.src.drop nPos).take (total reads) ∧ bytes.length = total reads) ∧
    ((∀ r ∈ reads, r.1.Delivers ∧ r.2 + source.nRewind ≤ source.nBufSize) →
      total reads + nPos ≤ min file.nReadLimit.toNat source.src.length →
        ∃ bytes file', readMany source reads file = (.ok bytes, file'))

/-! ### The window of the buffer -/

/-- The reader is in the window that the buffer retains. -/
structure Valid (file : CBufferedFile) : Prop where
  length_vchBuf : file.vchBuf.length = source.nBufSize
  nSrcPos_le : file.nSrcPos ≤ source.src.length
  nReadPos_le : file.nReadPos ≤ file.nSrcPos
  near : file.nSrcPos ≤ file.nReadPos + source.nBufSize
  retains : Retains file.vchBuf source.src file.nSrcPos

variable {source} {file : CBufferedFile} {fread : FRead}

theorem valid_new : (new source).Valid source where
  length_vchBuf := length_replicate
  nSrcPos_le := Nat.zero_le _
  nReadPos_le := le_rfl
  near := Nat.zero_le _
  retains := retains_zero _ _

inductive Filled (source : BufferedSource) (fread : FRead) (file : CBufferedFile) :
    Except Failure Bool × CBufferedFile → Prop
  | failed (message : String) (heq : file.nReadPos = file.nSrcPos)
      (hfail : fread.Delivers → source.src.length ≤ file.nSrcPos) :
      Filled source fread file (.error (.exception message), { file with fFail := true })
  | ready (fAny : Bool) (file' : CBufferedFile) (hvalid : file'.Valid source)
      (hread : file'.nReadPos = file.nReadPos) (hlimit : file'.nReadLimit = file.nReadLimit)
      (hlt : file'.nReadPos < file'.nSrcPos) : Filled source fread file (.ok fAny, file')

theorem Valid.setFail (h : file.Valid source) : { file with fFail := true }.Valid source :=
  ⟨h.length_vchBuf, h.nSrcPos_le, h.nReadPos_le, h.near, h.retains⟩

theorem filled_fill (h : file.Valid source) (heq : file.nReadPos = file.nSrcPos) :
    Filled source fread file (fill source fread file) := by
  have hrewind := source.nRewind_lt
  have hpos := Nat.mod_lt file.nSrcPos (show 0 < source.nBufSize by omega)
  simp only [fill]
  generalize hread : min (source.nBufSize - file.nSrcPos % source.nBufSize)
    (source.nBufSize - (file.nSrcPos - file.nReadPos) - source.nRewind) = nRead
  rw [if_neg (by omega)]
  have hle := fread.count_le file.nSrcPos (min nRead (source.src.length - file.nSrcPos))
  generalize hcount : fread.count file.nSrcPos (min nRead (source.src.length - file.nSrcPos)) =
    count at hle
  by_cases hzero : count = 0
  · rw [if_pos hzero]
    refine .failed _ heq fun hdelivers => ?_
    by_contra hlt
    have hpositive := hdelivers file.nSrcPos (min nRead (source.src.length - file.nSrcPos)) (by omega)
    omega
  · rw [if_neg hzero]
    have hfit : file.nSrcPos % file.vchBuf.length + count ≤ file.vchBuf.length := by
      rw [h.length_vchBuf]
      omega
    have hwrite := h.retains.write hfit (by omega : file.nSrcPos + count ≤ source.src.length)
    rw [h.length_vchBuf] at hwrite hfit
    have hlength : ((source.src.drop file.nSrcPos).take count).length ≤ count :=
      length_take_le _ _
    have hvalid : { file with
        vchBuf := overwrite file.vchBuf (file.nSrcPos % source.nBufSize)
          ((source.src.drop file.nSrcPos).take count)
        nSrcPos := file.nSrcPos + count }.Valid source := by
      refine ⟨?_, ?_, ?_, ?_, hwrite⟩
      · rw [← h.length_vchBuf]
        exact length_overwrite (by rw [h.length_vchBuf]; omega)
      · change file.nSrcPos + count ≤ _
        omega
      · change file.nReadPos ≤ file.nSrcPos + count
        omega
      · change file.nSrcPos + count ≤ file.nReadPos + _
        omega
    refine .ready true _ hvalid rfl rfl ?_
    change file.nReadPos < file.nSrcPos + count
    omega

theorem filled_fillIfRead (h : file.Valid source) (fread : FRead) :
    Filled source fread file (fillIfRead source fread file) := by
  rw [fillIfRead]
  split_ifs with heq
  · exact filled_fill h heq
  · exact .ready true file h rfl rfl (lt_of_le_of_ne h.nReadPos_le heq)

theorem Valid.advance (h : file.Valid source) {n : ℕ} (hle : file.nReadPos + n ≤ file.nSrcPos) :
    { file with nReadPos := file.nReadPos + n }.Valid source := by
  have hnear := h.near
  refine ⟨h.length_vchBuf, h.nSrcPos_le, hle, ?_, h.retains⟩
  change file.nSrcPos ≤ file.nReadPos + n + _
  omega

theorem nNow_spec (source : BufferedSource) (hlt : file.nReadPos < file.nSrcPos) {nSize : ℕ}
    (hsize : nSize ≠ 0) :
    nNow source file nSize ≠ 0 ∧ file.nReadPos + nNow source file nSize ≤ file.nSrcPos ∧
      file.nReadPos % source.nBufSize + nNow source file nSize ≤ source.nBufSize := by
  have hrewind := source.nRewind_lt
  have hpos := Nat.mod_lt file.nReadPos (show 0 < source.nBufSize by omega)
  simp only [nNow]
  split_ifs <;> omega

section

variable (h : file.Valid source)
include h

/-- The loop copies the bytes from the reader on, or stops because the file cannot be read. -/
theorem readLoop_spec (fread : FRead) (nSize : ℕ) (pch : Bytes) :
    (readLoop source fread nSize pch file).2.Valid source ∧
      (readLoop source fread nSize pch file).2.nReadLimit = file.nReadLimit ∧
      (∀ bytes, (readLoop source fread nSize pch file).1 = .ok bytes →
        bytes = pch ++ (source.src.drop file.nReadPos).take nSize ∧
          (readLoop source fread nSize pch file).2.nReadPos = file.nReadPos + nSize) ∧
      (fread.Delivers → file.nReadPos + nSize ≤ source.src.length →
        ∃ bytes, (readLoop source fread nSize pch file).1 = .ok bytes) := by
  induction nSize using Nat.strong_induction_on generalizing pch file with
  | _ nSize ih =>
    rw [readLoop]
    split_ifs with hzero
    · refine ⟨h, rfl, fun bytes hbytes => ?_, fun _ _ => ⟨pch, rfl⟩⟩
      cases hbytes
      rw [hzero, take_zero, append_nil]
      exact ⟨rfl, rfl⟩
    have hfilled := filled_fillIfRead h fread
    generalize fillIfRead source fread file = result at hfilled
    cases hfilled with
    | failed message heq hfail =>
      refine ⟨h.setFail, rfl, fun _ hok => (by cases hok), fun hdelivers hle => ?_⟩
      have hend := hfail hdelivers
      omega
    | ready fAny file' hvalid hread hlimit hlt =>
      have hspec := nNow_spec source hlt hzero
      have hnow := nNow_le source file' nSize
      dsimp only
      generalize nNow source file' nSize = n at hspec hnow ⊢
      obtain ⟨hne, hle, hfit⟩ := hspec
      rw [if_neg hne]
      have hcopy : (file'.vchBuf.drop (file'.nReadPos % source.nBufSize)).take n =
          (source.src.drop file'.nReadPos).take n := by
        rw [← hvalid.length_vchBuf] at hfit ⊢
        refine hvalid.retains.read hfit hle ?_
        rw [hvalid.length_vchBuf]
        exact hvalid.near
      obtain ⟨hvalid', hlimit', hbytes, hreturns⟩ := ih (nSize - n) (by omega) (hvalid.advance hle)
        (pch ++ (file'.vchBuf.drop (file'.nReadPos % source.nBufSize)).take n)
      refine ⟨hvalid', hlimit'.trans hlimit, fun bytes hok => ?_, fun hdelivers hend => ?_⟩
      · obtain ⟨heq, hpos⟩ := hbytes bytes hok
        have htake : nSize = n + (nSize - n) := by omega
        refine ⟨?_, ?_⟩
        · rw [heq, hcopy, append_assoc, ← drop_drop, ← take_add, ← htake, hread]
        · rw [hpos]
          change file'.nReadPos + n + _ = _
          omega
      · refine hreturns hdelivers ?_
        change file'.nReadPos + n + _ ≤ _
        omega

theorem read_spec (fread : FRead) (nSize : ObjectSize) :
    (read source fread nSize file).2.Valid source ∧
      (read source fread nSize file).2.nReadLimit = file.nReadLimit ∧
      (∀ bytes, (read source fread nSize file).1 = .ok bytes →
        bytes = (source.src.drop file.nReadPos).take nSize ∧
          (read source fread nSize file).2.nReadPos = file.nReadPos + nSize) ∧
      (fread.Delivers → nSize + source.nRewind ≤ source.nBufSize →
        nSize + file.nReadPos ≤ min file.nReadLimit.toNat source.src.length →
          ∃ bytes, (read source fread nSize file).1 = .ok bytes) := by
  rw [read]
  split_ifs with hlimit hsize
  · exact ⟨h, rfl, fun _ hok => (by cases hok), fun _ _ hle => absurd hle (by omega)⟩
  · exact ⟨h, rfl, fun _ hok => (by cases hok), fun _ hle => absurd hle (by omega)⟩
  · obtain ⟨hvalid, hsame, hbytes, hreturns⟩ := readLoop_spec h fread nSize []
    exact ⟨hvalid, hsame, hbytes, fun hdelivers _ hle => hreturns hdelivers (by omega)⟩

theorem findByteLoop_valid (fread : FRead) (ch : UInt8) (nLeft : ℕ) :
    (findByteLoop source fread ch nLeft file).2.Valid source := by
  induction nLeft generalizing file with
  | zero =>
    rw [findByteLoop]
    have hfilled := filled_fillIfRead h fread
    generalize fillIfRead source fread file = result at hfilled
    cases hfilled with
    | failed message heq hfail => exact h.setFail
    | ready fAny file' hvalid hread hlimit hlt =>
      dsimp only
      split_ifs <;> exact hvalid
  | succ nLeft ih =>
    rw [findByteLoop]
    have hfilled := filled_fillIfRead h fread
    generalize fillIfRead source fread file = result at hfilled
    cases hfilled with
    | failed message heq hfail => exact h.setFail
    | ready fAny file' hvalid hread hlimit hlt =>
      dsimp only
      split_ifs
      · exact hvalid
      · exact ih (hvalid.advance hlt)

theorem setPos_valid {nPos : UInt64} (hfits : nPos.toNat + source.nRewind < 2 ^ 64) :
    (setPos source nPos file).2.Valid source := by
  have hrewind := source.nRewind_lt
  have hlength := source.length_lt
  have hle := h.nSrcPos_le
  rw [setPos, Nat.mod_eq_of_lt hfits]
  split_ifs with hback hahead
  · have hpos : (2 ^ 64 + file.nSrcPos - source.nRewind) % 2 ^ 64 =
        file.nSrcPos - source.nRewind := by omega
    rw [hpos]
    refine ⟨h.length_vchBuf, hle, Nat.sub_le _ _, ?_, h.retains⟩
    change file.nSrcPos ≤ file.nSrcPos - source.nRewind + _
    omega
  · refine ⟨h.length_vchBuf, hle, le_rfl, ?_, h.retains⟩
    change file.nSrcPos ≤ file.nSrcPos + _
    omega
  · refine ⟨h.length_vchBuf, hle, not_lt.mp hahead, ?_, h.retains⟩
    change file.nSrcPos ≤ nPos.toNat + _
    omega

theorem step_valid {call : BufferedCall} (hfits : call.Fits source) :
    (step source file call).Valid source := by
  cases call with
  | read fread nSize => exact (read_spec h fread nSize).1
  | findByte fread ch => exact findByteLoop_valid h fread ch _
  | setLimit nPos =>
    rw [step, setLimit]
    split_ifs
    · exact h
    · exact ⟨h.length_vchBuf, h.nSrcPos_le, h.nReadPos_le, h.near, h.retains⟩
  | setPos nPos => exact setPos_valid h hfits

end

theorem run_valid {calls : List BufferedCall} (hfits : ∀ call ∈ calls, call.Fits source) :
    (run source calls).Valid source :=
  foldlRecOn calls (step source) valid_new fun _ h call hcall => step_valid h (hfits call hcall)

theorem Valid.readsFrom (h : file.Valid source) : ReadsFrom source file.nReadPos file := by
  intro reads
  induction reads generalizing file with
  | nil =>
    refine ⟨fun bytes file' hread => ?_, fun _ _ => ⟨[], file, rfl⟩⟩
    cases hread
    exact ⟨rfl, rfl⟩
  | cons first rest ih =>
    obtain ⟨fread, nSize⟩ := first
    obtain ⟨hvalid, hlimit, hbytes, hreturns⟩ := read_spec h fread nSize
    rw [readMany]
    rcases hread : read source fread nSize file with ⟨result, next⟩
    rw [hread] at hvalid hlimit hbytes hreturns
    obtain ⟨hright, hrest⟩ := ih hvalid
    cases result with
    | error e =>
      refine ⟨fun _ _ hok => (by cases hok), fun hall hle => ?_⟩
      obtain ⟨hdelivers, hsize⟩ := hall _ (mem_cons_self ..)
      rw [total_cons] at hle
      obtain ⟨bytes, hok⟩ := hreturns hdelivers hsize (by omega)
      cases hok
    | ok bytes =>
      obtain ⟨hfirst, hpos⟩ := hbytes bytes rfl
      dsimp only at hpos hlimit hright hrest ⊢
      rw [total_cons]
      have hlength : bytes.length = nSize := by
        have hread : next.nReadPos ≤ next.nSrcPos := hvalid.nReadPos_le
        have hsrc : next.nSrcPos ≤ source.src.length := hvalid.nSrcPos_le
        rw [hfirst, length_take_of_le]
        rw [length_drop]
        omega
      rcases hmore : readMany source rest next with ⟨result, last⟩
      rw [hmore] at hright hrest
      cases result with
      | error e =>
        refine ⟨fun _ _ hok => (by cases hok), fun hall hle => ?_⟩
        obtain ⟨more, file', hok⟩ := hrest (fun r hr => hall r (mem_cons_of_mem _ hr))
          (by rw [hlimit]; omega)
        cases hok
      | ok more =>
        obtain ⟨hmoreEq, hmoreLength⟩ := hright more last rfl
        refine ⟨fun all file' hok => ?_, fun _ _ => ⟨_, _, rfl⟩⟩
        cases hok
        refine ⟨?_, by rw [length_append, hlength, hmoreLength]⟩
        rw [hmoreEq, hfirst, hpos, take_add, drop_drop]

/-- Going back to a position works just if not more than `nRewind` bytes behind it have been read
from the file, wherever the reader is. -/
theorem setPos_iff {source : BufferedSource} {calls : List BufferedCall}
    (hfits : ∀ call ∈ calls, call.Fits source) {nPos : UInt64}
    (hread : nPos.toNat ≤ (run source calls).nSrcPos) :
    ((setPos source nPos (run source calls)).1 = true ∧
        ReadsFrom source nPos.toNat (setPos source nPos (run source calls)).2) ↔
      (run source calls).nSrcPos ≤ nPos.toNat + source.nRewind := by
  have hrun := run_valid hfits
  have hfit : nPos.toNat + source.nRewind < 2 ^ 64 := by
    have hsize := source.nRewind_lt.trans source.nBufSize_lt
    have hlength := hrun.nSrcPos_le.trans_lt source.length_lt
    omega
  have hvalid := setPos_valid hrun hfit
  constructor
  · rintro ⟨hset, -⟩
    by_contra hahead
    rw [setPos, Nat.mod_eq_of_lt hfit, if_pos (not_le.mp hahead)] at hset
    cases hset
  · intro hle
    have heq : setPos source nPos (run source calls) =
        (true, { run source calls with nReadPos := nPos.toNat }) := by
      rw [setPos, Nat.mod_eq_of_lt hfit, if_neg (not_lt.mpr hle), if_neg (not_lt.mpr hread)]
    rw [heq] at hvalid ⊢
    exact ⟨rfl, hvalid.readsFrom⟩

end CBufferedFile

namespace Sample

def freadAll : FRead := ⟨fun _ n => n, fun _ _ => le_rfl⟩

def blockFile : BufferedSource where
  src := List.replicate 2000000 0
  nBufSize := 2 * maxBlockSize
  nRewind := maxBlockSize + 8
  nRewind_lt := by decide
  nBufSize_lt := by decide
  length_lt := by rw [length_replicate]; decide

def twoReads : List BufferedCall := [.read freadAll 999992, .read freadAll 1]

end Sample

namespace CBufferedFile

theorem read_filled (source : BufferedSource) (file : CBufferedFile) (nSize : ObjectSize)
    (nAvail : ℕ) (heq : file.nReadPos = file.nSrcPos) (hne : nSize.val ≠ 0)
    (hlimit : nSize + file.nReadPos ≤ file.nReadLimit.toNat)
    (hsize : nSize + source.nRewind ≤ source.nBufSize)
    (hpos : nSize + file.nReadPos % source.nBufSize ≤ source.nBufSize)
    (havail : min (min (source.nBufSize - file.nSrcPos % source.nBufSize)
      (source.nBufSize - source.nRewind)) (source.src.length - file.nSrcPos) = nAvail)
    (hle : nSize ≤ nAvail) :
    (read source Sample.freadAll nSize file).2.nSrcPos = file.nSrcPos + nAvail ∧
      (read source Sample.freadAll nSize file).2.nReadPos = file.nReadPos + nSize ∧
      (read source Sample.freadAll nSize file).2.nReadLimit = file.nReadLimit := by
  have hread : file.nSrcPos - file.nReadPos = 0 := by omega
  set filled := { file with
    vchBuf := overwrite file.vchBuf (file.nSrcPos % source.nBufSize)
      ((source.src.drop file.nSrcPos).take nAvail)
    nSrcPos := file.nSrcPos + nAvail }
  have hfill : fillIfRead source Sample.freadAll file = (.ok true, filled) := by
    rw [fillIfRead, if_pos heq]
    simp only [fill, Sample.freadAll, hread, Nat.sub_zero, havail]
    rw [if_neg (by omega), if_neg (by omega)]
  have hnow : nNow source filled nSize = nSize := by
    have hinside : ¬source.nBufSize < nSize + file.nReadPos % source.nBufSize := by omega
    have hbehind : ¬file.nSrcPos + nAvail < nSize + file.nReadPos := by omega
    simp only [nNow, filled, if_neg hinside, if_neg hbehind]
  rw [read, if_neg (not_lt.mpr hlimit), if_neg (not_lt.mpr hsize), readLoop, if_neg hne, hfill]
  dsimp only
  rw [hnow, if_neg hne, Nat.sub_self, readLoop, if_pos rfl]
  exact ⟨rfl, rfl, rfl⟩

open Sample

theorem run_twoReads_of (source : BufferedSource) (hlength : source.src.length = 2000000)
    (hsize : source.nBufSize = 2000000) (hrewind : source.nRewind = 1000008) :
    (run source twoReads).nSrcPos = 1999984 ∧ (run source twoReads).nReadPos = 999993 := by
  have hrun : run source twoReads =
      (read source freadAll 1 (read source freadAll 999992 (new source)).2).2 := by
    simp only [run, twoReads, foldl_cons, foldl_nil, step]
  have hsrc₀ : (new source).nSrcPos = 0 := rfl
  have hread₀ : (new source).nReadPos = 0 := rfl
  have hlimit₀ : (new source).nReadLimit.toNat = 2 ^ 64 - 1 := rfl
  have hmany : (999992 : ObjectSize).val = 999992 := rfl
  have hone : (1 : ObjectSize).val = 1 := rfl
  rw [hrun]
  generalize new source = first at hsrc₀ hread₀ hlimit₀
  obtain ⟨hsrc₁, hread₁, hlimit₁⟩ := read_filled source first 999992 999992
    (by omega) (by omega) (by omega) (by omega) (by rw [hsize]; omega) (by rw [hsize]; omega)
    (by omega)
  generalize (read source freadAll 999992 first).2 = second at hsrc₁ hread₁ hlimit₁
  obtain ⟨hsrc₂, hread₂, -⟩ := read_filled source second 1 999992
    (by omega) (by omega) (by rw [hlimit₁]; omega) (by omega) (by rw [hsize]; omega)
    (by rw [hsize]; omega) (by omega)
  generalize (read source freadAll 1 second).2 = third at hsrc₂ hread₂
  omega

theorem run_twoReads :
    (run blockFile twoReads).nSrcPos = 1999984 ∧ (run blockFile twoReads).nReadPos = 999993 :=
  run_twoReads_of blockFile length_replicate rfl rfl

theorem setPos_iff_twoReads : 999992 ≤ (run blockFile twoReads).nSrcPos ∧
      (((setPos blockFile 999992 (run blockFile twoReads)).1 = true ∧
          ReadsFrom blockFile 999992 (setPos blockFile 999992 (run blockFile twoReads)).2) ↔
        (run blockFile twoReads).nSrcPos ≤ 999992 + blockFile.nRewind) := by
  have hfits : ∀ call ∈ twoReads, call.Fits blockFile := by
    intro call hcall
    fin_cases hcall <;> trivial
  have hread : 999992 ≤ (run blockFile twoReads).nSrcPos := by
    rw [run_twoReads.1]
    decide
  exact ⟨hread, @setPos_iff _ _ hfits 999992 hread⟩

/-- The first byte is less than `nRewind` bytes before the reader. -/
theorem not_setPos_twoReads : (run blockFile twoReads).nReadPos ≤ 0 + blockFile.nRewind ∧
      (setPos blockFile 0 (run blockFile twoReads)).1 = false := by
  refine ⟨by rw [run_twoReads.2]; decide, ?_⟩
  rw [setPos, if_pos (by rw [run_twoReads.1]; decide)]

end CBufferedFile

end Primecoin

import Primecoin.Block.UndoRecords

/-!
# Places in the block and undo files

Blocks and undo data are appended to numbered files; `FindBlockPos` and `FindUndoPos` hand out
places. A `CBlockFileInfo` keeps how many bytes of a file are taken: that of the last file in
memory, all of them in the block tree database.

A block found in a file comes with its position, and only its bytes are counted. While a function
leaves the last file for another, the record in memory has to be the one in the database:
`Coherent`.
-/

namespace Primecoin

open Stateful Function Option

def maxBlockFileSize : UInt32 := 0x8000000
def blockFileChunkSize : UInt32 := 0x1000000
def undoFileChunkSize : UInt32 := 0x100000

structure CBlockFileInfo where
  nBlocks : UInt32
  nSize : UInt32
  nUndoSize : UInt32
  nHeightFirst : UInt32
  nHeightLast : UInt32
  nTimeFirst : UInt64
  nTimeLast : UInt64
  deriving DecidableEq, Repr

namespace CBlockFileInfo

def null : CBlockFileInfo := ⟨0, 0, 0, 0, 0, 0, 0⟩

variable (info : CBlockFileInfo) (nHeightIn : UInt32) (nTimeIn : UInt64)

def addBlock : CBlockFileInfo :=
  let info := if info.nBlocks = 0 ∨ nHeightIn < info.nHeightFirst then
    { info with nHeightFirst := nHeightIn } else info
  let info := if info.nBlocks = 0 ∨ nTimeIn < info.nTimeFirst then
    { info with nTimeFirst := nTimeIn } else info
  let info := { info with nBlocks := info.nBlocks + 1 }
  let info := if info.nHeightFirst < nHeightIn then { info with nHeightLast := nHeightIn } else info
  if info.nTimeLast < nTimeIn then { info with nTimeLast := nTimeIn } else info

@[simp] theorem nSize_addBlock : (info.addBlock nHeightIn nTimeIn).nSize = info.nSize := by
  simp only [addBlock]
  split_ifs <;> rfl

@[simp] theorem nUndoSize_addBlock :
    (info.addBlock nHeightIn nTimeIn).nUndoSize = info.nUndoSize := by
  simp only [addBlock]
  split_ifs <;> rfl

def withBlock (nAddSize nHeight : UInt32) (nTime : UInt64) :
    CBlockFileInfo := { info with nSize := info.nSize + nAddSize }.addBlock nHeight nTime

def withUndo (nAddSize : UInt32) : CBlockFileInfo :=
  { info with nUndoSize := info.nUndoSize + nAddSize }

section Statistics

open List

def ofCalls (calls : List (UInt32 × UInt64)) : CBlockFileInfo :=
  calls.foldr (fun call info => info.addBlock call.1 call.2) null

def Extreme {α : Type} (r : α → α → Prop) (l : List α) (a : α) : Prop := a ∈ l ∧ ∀ b ∈ l, r a b

/-- What the comments say of the fields other than the last height. -/
structure Counts (info : CBlockFileInfo) (calls : List (UInt32 × UInt64)) : Prop where
  nBlocks : info.nBlocks.toNat = calls.length
  nHeightFirst : Extreme (· ≤ ·) (calls.map Prod.fst) info.nHeightFirst
  nTimeFirst : Extreme (· ≤ ·) (calls.map Prod.snd) info.nTimeFirst
  nTimeLast : Extreme (· ≥ ·) (calls.map Prod.snd) info.nTimeLast

/-- `m` is the latest height that is above an earlier one. -/
inductive LastRise : List UInt32 → UInt32 → Prop
  | rise {m e heights} : e ∈ heights → e < m → LastRise (m :: heights) m
  | fall {m h heights} : (∀ e ∈ heights, h ≤ e) → LastRise heights m → LastRise (h :: heights) m

theorem Extreme.cons {α : Type} {r : α → α → Prop} {l : List α} {a b : α} {c : Prop}
    [Decidable c] (h : Extreme r l a) (hrefl : r b b) (htrans : ∀ {x}, r b a → r a x → r b x)
    (hnew : c → r b a) (hold : ¬ c → r a b) : Extreme r (b :: l) (if c then b else a) := by
  split_ifs with hc
  · exact ⟨mem_cons_self, forall_mem_cons.mpr ⟨hrefl, fun x hx => htrans (hnew hc) (h.2 x hx)⟩⟩
  · exact ⟨mem_cons_of_mem b h.1, forall_mem_cons.mpr ⟨hold hc, h.2⟩⟩

/-- On a record that has blocks the last height is compared with the first one. -/
theorem addBlock_of_ne {info : CBlockFileInfo} (hne : info.nBlocks ≠ 0) (h : UInt32)
    (t : UInt64) : info.addBlock h t = { info with
      nBlocks := info.nBlocks + 1
      nHeightFirst := if h < info.nHeightFirst then h else info.nHeightFirst
      nHeightLast := if info.nHeightFirst < h then h else info.nHeightLast
      nTimeFirst := if t < info.nTimeFirst then t else info.nTimeFirst
      nTimeLast := if info.nTimeLast < t then t else info.nTimeLast } := by
  have hasymm : h < info.nHeightFirst → ¬ info.nHeightFirst < h := UInt32.lt_asymm
  simp only [addBlock, hne, false_or]
  split_ifs <;> simp_all [UInt32.lt_irrefl]

theorem null_addBlock (h : UInt32) (t : UInt64) : null.addBlock h t = ⟨1, 0, 0, h, 0, t, t⟩ := by
  by_cases ht : 0 < t
  · simp [addBlock, null, ht]
  · have hzero : t = 0 := UInt64.le_antisymm (UInt64.not_lt.mp ht) UInt64.zero_le
    simp [addBlock, null, hzero]

theorem ofCalls_spec {calls : List (UInt32 × UInt64)} (hne : calls ≠ [])
    (hlength : calls.length < 2 ^ 32) : (ofCalls calls).Counts calls ∧
      ((ofCalls calls).nHeightLast = 0 ∨
        LastRise (calls.map Prod.fst) (ofCalls calls).nHeightLast) ∧
      ∀ m, LastRise (calls.map Prod.fst) m → (ofCalls calls).nHeightLast = m := by
  induction calls with
  | nil => exact absurd rfl hne
  | cons call calls ih =>
    obtain ⟨h, t⟩ := call
    have hstep : ofCalls ((h, t) :: calls) = (ofCalls calls).addBlock h t := rfl
    by_cases hcalls : calls = []
    · rw [hstep, hcalls, ofCalls, foldr_nil, null_addBlock]
      refine ⟨by constructor <;> simp [Extreme], Or.inl rfl, fun m hm => ?_⟩
      cases hm with
      | rise he => cases he
      | fall _ hm => cases hm
    · obtain ⟨hcounts, hrise, hunique⟩ := ih hcalls (Nat.lt_of_succ_lt hlength)
      have hnonzero : (ofCalls calls).nBlocks ≠ 0 := fun hzero =>
        hcalls (length_eq_zero_iff.mp (hcounts.nBlocks ▸ congrArg UInt32.toNat hzero))
      rw [hstep, addBlock_of_ne hnonzero, map_cons]
      refine ⟨⟨?_, hcounts.nHeightFirst.cons (UInt32.le_refl h) UInt32.le_trans UInt32.le_of_lt
          UInt32.not_lt.mp, hcounts.nTimeFirst.cons (UInt64.le_refl t) UInt64.le_trans
          UInt64.le_of_lt UInt64.not_lt.mp, hcounts.nTimeLast.cons (UInt64.le_refl t)
          (fun h h' => UInt64.le_trans h' h) UInt64.le_of_lt UInt64.not_lt.mp⟩, ?_, fun m hm => ?_⟩
      · rw [UInt32.toNat_add, hcounts.nBlocks]
        exact Nat.mod_eq_of_lt hlength
      · by_cases hlow : (ofCalls calls).nHeightFirst < h
        · simp only [hlow, if_true]
          exact Or.inr (.rise hcounts.nHeightFirst.1 hlow)
        · simp only [hlow, if_false]
          exact hrise.imp_right (.fall fun e he =>
            UInt32.le_trans (UInt32.not_lt.mp hlow) (hcounts.nHeightFirst.2 e he))
      · cases hm with
        | rise he hlt => exact if_pos (UInt32.lt_of_le_of_lt (hcounts.nHeightFirst.2 _ he) hlt)
        | fall hle hm =>
          exact (if_neg (UInt32.not_lt.mpr (hle _ hcounts.nHeightFirst.1))).trans (hunique m hm)

theorem LastRise.mem {heights : List UInt32} {m : UInt32} (h : LastRise heights m) :
    m ∈ heights := by
  induction h with
  | rise => exact mem_cons_self
  | fall _ _ ih => exact mem_cons_of_mem _ ih

/-- The record is right exactly if the calls can be counted and the latest height above an earlier
one is the highest, or all are 0: any height above the first one is taken as the last. -/
theorem ofCalls_summarizes_iff {calls : List (UInt32 × UInt64)} (hne : calls ≠ []) :
    (ofCalls calls).Counts calls ∧
        Extreme (· ≥ ·) (calls.map Prod.fst) (ofCalls calls).nHeightLast ↔
      calls.length < 2 ^ 32 ∧ ((∀ h ∈ calls.map Prod.fst, h = 0) ∨
        ∃ m, LastRise (calls.map Prod.fst) m ∧ ∀ h ∈ calls.map Prod.fst, h ≤ m) := by
  constructor
  · rintro ⟨hcounts, -, hmax⟩
    have hlength : calls.length < 2 ^ 32 := hcounts.nBlocks ▸ UInt32.toNat_lt _
    refine ⟨hlength, (ofCalls_spec hne hlength).2.1.imp (fun hzero x hx => ?_) (⟨_, ·, hmax⟩)⟩
    exact UInt32.le_antisymm (hzero ▸ hmax x hx) UInt32.zero_le
  · rintro ⟨hlength, hheights⟩
    obtain ⟨hcounts, hrise, hunique⟩ := ofCalls_spec hne hlength
    refine ⟨hcounts, ?_⟩
    rcases hheights with hzero | ⟨m, hm, hmax⟩
    · have hfirst := hcounts.nHeightFirst.1
      have hlast : (ofCalls calls).nHeightLast = 0 := hrise.elim id fun h => hzero _ h.mem
      rw [hzero _ hfirst] at hfirst
      rw [hlast]
      exact ⟨hfirst, fun h hh => hzero h hh ▸ UInt32.le_refl 0⟩
    · rw [hunique m hm]
      exact ⟨hm.mem, hmax⟩

theorem ofCalls_summarizes_rising : (ofCalls [(5, 20), (1, 10)]).Counts [(5, 20), (1, 10)] ∧
    Extreme (· ≥ ·) [5, 1] (ofCalls [(5, 20), (1, 10)]).nHeightLast :=
  (ofCalls_summarizes_iff (by decide)).mpr
    ⟨by decide, .inr ⟨5, .rise mem_cons_self (by decide), by simp⟩⟩

/-- The first block of a file does not count as its highest. -/
theorem ofCalls_not_summarizes : (ofCalls [(7, 10)]).nHeightLast = 0 ∧
    ¬ Extreme (· ≥ ·) [7] (ofCalls [(7, 10)]).nHeightLast := by
  refine ⟨rfl, fun h => ?_⟩
  exact absurd h.1 (by decide)

end Statistics

end CBlockFileInfo

/-- The number of a file is an `int` that is never negative. -/
structure FilePos where
  nFile : ℕ
  nPos : UInt32
  deriving DecidableEq, Repr

/-- `nLastBlockFile`, `infoLastBlockFile` and the records in the block tree
database. -/
structure BlockFiles where
  nLastBlockFile : ℕ
  infoLastBlockFile : CBlockFileInfo
  db : ℕ → Option CBlockFileInfo

/-- What the disk does in one call. -/
structure FileIo where
  fDiskSpace : Bool
  writeFileInfo : IoResult

namespace BlockFiles

def fresh : BlockFiles := ⟨0, .null, fun _ => none⟩

variable (files : BlockFiles)

def switch (nFile : ℕ) : BlockFiles :=
  { files with nLastBlockFile := nFile, infoLastBlockFile := (files.db nFile).getD .null }

/-- The loop that leaves files without room for `nAddSize` more bytes; `none` when the rounds are
not enough. -/
def leaveFull (nAddSize : UInt32) : ℕ → BlockFiles → Option BlockFiles
  | 0, _ => none
  | rounds + 1, files =>
    if maxBlockFileSize ≤ files.infoLastBlockFile.nSize + nAddSize then
      leaveFull nAddSize rounds (files.switch (files.nLastBlockFile + 1))
    else some files

variable (io : FileIo) (nFile : ℕ) (info : CBlockFileInfo)

def writeBlockFileInfo (message : String) : Stateful BlockFiles Failure Unit := do
  lift (io.writeFileInfo.orAbort message)
  modify fun files => { files with db := update files.db nFile (some info) }

/-- The number of chunks in which a file of the given size is allocated. -/
def chunks (nChunkSize nBytes : UInt32) : UInt32 := (nBytes + nChunkSize - 1) / nChunkSize

def preallocate (nChunkSize nOldSize nNewSize : UInt32) : Stateful BlockFiles Failure Unit :=
  if chunks nChunkSize nOldSize < chunks nChunkSize nNewSize ∧ io.fDiskSpace = false then
    lift (.error (.abort ""))
  else pure ()

/-- The bytes of a block with a known position are in the file already. -/
def preallocateBlock (fKnown : Bool) (nOldSize nNewSize : UInt32) :
    Stateful BlockFiles Failure Unit :=
  if fKnown then pure () else preallocate io blockFileChunkSize nOldSize nNewSize

def recordBlock (pos : FilePos) (nAddSize nHeight : UInt32) (nTime : UInt64)
    (fKnown : Bool) : Stateful BlockFiles Failure FilePos := do
  modify fun files =>
    { files with infoLastBlockFile := files.infoLastBlockFile.withBlock nAddSize nHeight nTime }
  let files ← get
  preallocateBlock io fKnown pos.nPos files.infoLastBlockFile.nSize
  writeBlockFileInfo io files.nLastBlockFile files.infoLastBlockFile "Failed to write file info"
  pure pos

/-- `fKnown` is set when a position comes with the block. -/
def findBlockPos (rounds : ℕ) (io : FileIo) (files : BlockFiles) (known : Option FilePos)
    (nAddSize nHeight : UInt32) (nTime : UInt64) : Option (Except Failure FilePos × BlockFiles) :=
  match known with
  | some pos =>
    let files := if files.nLastBlockFile ≠ pos.nFile then files.switch pos.nFile else files
    some ((recordBlock io pos nAddSize nHeight nTime true).run files)
  | none =>
    (files.leaveFull nAddSize rounds).map fun files =>
      (recordBlock io ⟨files.nLastBlockFile, files.infoLastBlockFile.nSize⟩ nAddSize nHeight
        nTime false).run files

def findUndoPos (nAddSize : UInt32) : Stateful BlockFiles Failure FilePos := do
  let files ← get
  if nFile = files.nLastBlockFile then
    let info := files.infoLastBlockFile
    modify fun files => { files with infoLastBlockFile := info.withUndo nAddSize }
    writeBlockFileInfo io nFile (info.withUndo nAddSize) "Failed to write block info"
    preallocate io undoFileChunkSize info.nUndoSize (info.withUndo nAddSize).nUndoSize
    pure ⟨nFile, info.nUndoSize⟩
  else
    match files.db nFile with
    | none => lift (.error (.abort "Failed to read block info"))
    | some info =>
      writeBlockFileInfo io nFile (info.withUndo nAddSize) "Failed to write block info"
      preallocate io undoFileChunkSize info.nUndoSize (info.withUndo nAddSize).nUndoSize
      pure ⟨nFile, info.nUndoSize⟩

/-! ## The table of records -/

def table : CBlockFileInfo := (files.db nFile).getD .null

def Coherent : Prop :=
  files.infoLastBlockFile = files.table files.nLastBlockFile

theorem coherent_fresh : fresh.Coherent := rfl

theorem coherent_switch : (files.switch nFile).Coherent := rfl

/-- What a call that returns has done: one record of the table is replaced. -/
structure Replaces (table : ℕ → CBlockFileInfo) (files' : BlockFiles) (nFile : ℕ)
    (info : CBlockFileInfo) : Prop where
  coherent : files'.Coherent
  table_eq : files'.table = update table nFile info

theorem table_update : (fun other => (update files.db nFile (some info) other).getD .null) =
      update files.table nFile info := by
  funext other
  by_cases h : other = nFile
  · subst h
    rw [update_self, update_self]
    rfl
  · rw [update_of_ne h, update_of_ne h]
    rfl

section Specs

variable {io : FileIo} {files files' : BlockFiles} {pos pos' : FilePos}
  {nAddSize nHeight : UInt32} {nTime : UInt64}

theorem writeBlockFileInfo_ok {nFile : ℕ} {info : CBlockFileInfo} {message : String}
    (h : (writeBlockFileInfo io nFile info message).run files = (.ok (), files')) :
    files' = { files with db := update files.db nFile (some info) } := by
  simp only [writeBlockFileInfo, run_bind_eq_ok_iff, run_lift, run_modify, Prod.mk.injEq] at h
  obtain ⟨_, _, ⟨-, rfl⟩, -, rfl⟩ := h
  rfl

theorem preallocate_ok {nChunkSize nOldSize nNewSize : UInt32}
    (h : (preallocate io nChunkSize nOldSize nNewSize).run files = (.ok (), files')) :
    files' = files := by
  unfold preallocate at h
  split_ifs at h
  · cases h
  · cases h
    rfl

theorem preallocateBlock_ok {fKnown : Bool} {nOldSize nNewSize : UInt32}
    (h : (preallocateBlock io fKnown nOldSize nNewSize).run files = (.ok (), files')) :
    files' = files := by
  unfold preallocateBlock at h
  split_ifs at h
  · exact (Prod.mk.inj h).2.symm
  · exact preallocate_ok h

theorem recordBlock_ok {fKnown : Bool} (hfiles : files.Coherent)
    (h : (recordBlock io pos nAddSize nHeight nTime fKnown).run files = (.ok pos', files')) :
    pos' = pos ∧ files'.nLastBlockFile = files.nLastBlockFile ∧
      Replaces files.table files' files.nLastBlockFile
        ((files.table files.nLastBlockFile).withBlock nAddSize nHeight nTime) := by
  simp only [recordBlock, run_bind_eq_ok_iff, run_modify, run_get,
    run_pure, Prod.mk.injEq, Except.ok.injEq] at h
  obtain ⟨_, _, ⟨-, rfl⟩, _, _, ⟨rfl, rfl⟩, _, _, hspace, _, _, hwrite, rfl, rfl⟩ := h
  obtain rfl := preallocateBlock_ok hspace
  obtain rfl := writeBlockFileInfo_ok hwrite
  rw [← hfiles]
  refine ⟨rfl, rfl, ?_, table_update files _ _⟩
  rw [Coherent, table]
  simp only [update_self, getD_some]

theorem recordBlock_returns (files : BlockFiles) (pos : FilePos) (nAddSize nHeight : UInt32)
    (nTime : UInt64) (fKnown : Bool) :
    ∃ files', (recordBlock ⟨true, .ok⟩ pos nAddSize nHeight nTime fKnown).run files =
      (.ok pos, files') := by
  have hspace : ∀ (files : BlockFiles) (nOldSize nNewSize : UInt32),
      (preallocateBlock ⟨true, .ok⟩ fKnown nOldSize nNewSize).run files = (.ok (), files) := by
    intro files nOldSize nNewSize
    unfold preallocateBlock preallocate
    split_ifs with hknown hspace
    · rfl
    · exact hspace.2.elim
    · rfl
  rw [recordBlock, run_modify_bind, run_get_bind, run_bind_of_ok (hspace _ _ _)]
  exact ⟨_, rfl⟩

variable {rounds : ℕ}

theorem findBlockPos_known_ok (hfiles : files.Coherent)
    (h : findBlockPos rounds io files (some pos) nAddSize nHeight nTime = some (.ok pos', files')) :
    pos' = pos ∧ files'.nLastBlockFile = pos.nFile ∧ Replaces files.table files' pos.nFile
        ((files.table pos.nFile).withBlock nAddSize nHeight nTime) := by
  simp only [findBlockPos, some.injEq] at h
  split_ifs at h with hfile
  · exact recordBlock_ok (coherent_switch files pos.nFile) h
  · obtain ⟨hpos, hlast, hreplaces⟩ := recordBlock_ok hfiles h
    rw [not_not.mp hfile] at hlast hreplaces
    exact ⟨hpos, hlast, hreplaces⟩

theorem leaveFull_ok (hfiles : files.Coherent) (h : files.leaveFull nAddSize rounds = some files') :
    files'.Coherent ∧ files'.table = files.table := by
  induction rounds generalizing files with
  | zero => cases h
  | succ rounds ih =>
    rw [leaveFull] at h
    split_ifs at h
    · have hnext := ih (coherent_switch files _) h
      exact hnext
    · obtain rfl := some.inj h
      exact ⟨hfiles, rfl⟩

theorem findBlockPos_new_ok (hfiles : files.Coherent)
    (h : findBlockPos rounds io files none nAddSize nHeight nTime = some (.ok pos', files')) :
    pos' = ⟨files'.nLastBlockFile, (files.table files'.nLastBlockFile).nSize⟩ ∧
      Replaces files.table files' files'.nLastBlockFile
        ((files.table files'.nLastBlockFile).withBlock nAddSize nHeight nTime) := by
  obtain ⟨next, hnext, hrun⟩ := map_eq_some_iff.mp h
  obtain ⟨hcoherent, htable⟩ := leaveFull_ok hfiles hnext
  obtain ⟨hpos, hlast, hreplaces⟩ := recordBlock_ok hcoherent hrun
  rw [htable] at hreplaces
  rw [hcoherent, htable] at hpos
  rw [hlast]
  exact ⟨hpos, hreplaces⟩

theorem findUndoPos_ok {nFile : ℕ} (hfiles : files.Coherent)
    (h : (findUndoPos io nFile nAddSize).run files = (.ok pos', files')) :
    pos' = ⟨nFile, (files.table nFile).nUndoSize⟩ ∧
      Replaces files.table files' nFile ((files.table nFile).withUndo nAddSize) := by
  rw [findUndoPos, run_get_bind] at h
  split_ifs at h with hlast
  · simp only [run_bind_eq_ok_iff, run_modify, run_pure, Prod.mk.injEq, Except.ok.injEq] at h
    obtain ⟨_, _, ⟨-, rfl⟩, _, _, hwrite, _, _, hspace, rfl, rfl⟩ := h
    obtain rfl := writeBlockFileInfo_ok hwrite
    obtain rfl := preallocate_ok hspace
    rw [hlast, ← hfiles]
    refine ⟨rfl, ?_, table_update files _ _⟩
    rw [Coherent, table]
    simp only [update_self, getD_some]
  · cases hread : files.db nFile with
    | none =>
      rw [hread] at h
      cases h
    | some info =>
      have hinfo : files.table nFile = info := by rw [table, hread, getD_some]
      rw [hread] at h
      simp only [run_bind_eq_ok_iff, run_pure, Prod.mk.injEq, Except.ok.injEq] at h
      obtain ⟨_, _, hwrite, _, _, hspace, rfl, rfl⟩ := h
      obtain rfl := writeBlockFileInfo_ok hwrite
      obtain rfl := preallocate_ok hspace
      rw [hinfo]
      refine ⟨rfl, ?_, table_update files _ _⟩
      rw [Coherent, table]
      simp only [update_of_ne (Ne.symm hlast)]
      exact hfiles

end Specs

end BlockFiles

end Primecoin

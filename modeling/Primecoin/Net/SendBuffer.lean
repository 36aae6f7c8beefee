import Primecoin.Codec.Buffer
import Primecoin.Codec.LittleEndian
import Primecoin.Control.Except
import Primecoin.Net.Message

/-!
# The send buffer of a peer

A message is begun with a header without size and checksum. `endMessage` fills them in and queues
the message, and `socketSendData` offers the queue to the socket, which may take any part of it.

What the socket has taken and what is queued are together the finished messages, in order.
-/

namespace Primecoin

open Codec List CMessageHeader

namespace CMessageHeader

def commandSize : ℕ := 12
def messageSizeOffset : ℕ := 16
def checksumOffset : ℕ := 20
def headerSize : ℕ := 24

def new (network : Network) (pszCommand : Bytes) (nMessageSizeIn : UInt32) : CMessageHeader where
  pchMessageStart := Primecoin.pchMessageStart network
  pchCommand := pszCommand.take commandSize ++ List.replicate (commandSize - pszCommand.length) 0
  nMessageSize := nMessageSizeIn
  nChecksum := 0

def serialize (hdr : CMessageHeader) : Bytes :=
  hdr.pchMessageStart ++ hdr.pchCommand ++ leBytes 4 hdr.nMessageSize.toNat ++
    leBytes 4 hdr.nChecksum.toNat

end CMessageHeader

def beginMessage (network : Network) (pszCommand : Bytes) : Bytes :=
  (new network pszCommand 0).serialize

variable (hash : Bytes → UInt256)

/-- `EndMessage` up to the queue: the size and the checksum are written into the header. -/
def finishMessage (ssSend : Bytes) : Bytes :=
  let nSize := UInt32.ofNat (ssSend.length - headerSize)
  let ssSend := overwrite ssSend messageSizeOffset (leBytes 4 nSize.toNat)
  let nChecksum := UInt32.ofNat (hash (ssSend.drop headerSize)).toNat
  overwrite ssSend checksumOffset (leBytes 4 nChecksum.toNat)

/-- The errors of `send` after which the socket is kept, and the others. -/
inductive SendError
  | wouldBlock
  | msgSize
  | intr
  | inProgress
  | other (nErr : Int32)
  deriving DecidableEq, Repr

inductive SendResult
  | bytes (nBytes : ℕ)
  | error (nErr : SendError)
  deriving DecidableEq, Repr

/-- What the calls of `send` return during one pass over the queue, by their number and the bytes
offered. No more is taken than offered. -/
structure Socket where
  send : ℕ → ℕ → SendResult
  send_le : ∀ k nOffered nBytes, send k nOffered = .bytes nBytes → nBytes ≤ nOffered

/-- `accepted` is kept as history: the bytes the socket has taken. -/
structure SendBuffer where
  vSendMsg : List Bytes
  nSendSize : ℕ
  nSendOffset : ℕ
  nSendBytes : UInt64
  fDisconnect : Bool
  accepted : Bytes
  deriving DecidableEq, Repr

namespace SendBuffer

def new : SendBuffer := ⟨[], 0, 0, 0, false, []⟩

/-- The loop from a message of the queue on, with the assertions and the erasure behind it. -/
def sendLoop (socket : Socket) : ℕ → List Bytes → SendBuffer → Except Failure SendBuffer
  | _, [], buffer =>
    if buffer.nSendOffset ≠ 0 then .error (.assertion "pnode->nSendOffset == 0")
    else if buffer.nSendSize ≠ 0 then .error (.assertion "pnode->nSendSize == 0")
    else .ok { buffer with vSendMsg := [] }
  | k, data :: rest, buffer =>
    if data.length ≤ buffer.nSendOffset then
      .error (.assertion "data.size() > pnode->nSendOffset")
    else
      match socket.send k (data.length - buffer.nSendOffset) with
      | .error nErr =>
        .ok { buffer with
          vSendMsg := data :: rest
          fDisconnect := buffer.fDisconnect || match nErr with
            | .other _ => true
            | _ => false }
      | .bytes nBytes =>
        if nBytes = 0 then .ok { buffer with vSendMsg := data :: rest }
        else
          let buffer := { buffer with
            nSendBytes := buffer.nSendBytes + UInt64.ofNat nBytes
            nSendOffset := buffer.nSendOffset + nBytes
            accepted := buffer.accepted ++ (data.drop buffer.nSendOffset).take nBytes }
          if buffer.nSendOffset = data.length then
            sendLoop socket (k + 1) rest
              { buffer with nSendOffset := 0, nSendSize := buffer.nSendSize - data.length }
          else .ok { buffer with vSendMsg := data :: rest }

def socketSendData (socket : Socket) (buffer : SendBuffer) : Except Failure SendBuffer :=
  sendLoop socket 0 buffer.vSendMsg buffer

/-- `fDrop` says whether `-dropmessagestest` drops the message. -/
def endMessage (ssSend : Bytes) (fDrop : Bool) (socket : Socket)
    (buffer : SendBuffer) : Except Failure SendBuffer :=
  if fDrop then .ok buffer
  else if ssSend = [] then .ok buffer
  else if ssSend.length < checksumOffset + 4 then
    .error (.assertion "ssSend.size () >= CMessageHeader::CHECKSUM_OFFSET + sizeof(nChecksum)")
  else
    let data := finishMessage hash ssSend
    let queued := { buffer with
      vSendMsg := buffer.vSendMsg ++ [data]
      nSendSize := buffer.nSendSize + data.length }
    if buffer.vSendMsg = [] then queued.socketSendData socket else .ok queued

end SendBuffer

/-- `EndMessage` may find a message that was begun, with its command and payload. -/
inductive SendEvent
  | endMessage (begun : Option (Bytes × Bytes)) (fDrop : Bool) (socket : Socket)
  | socketSendData (socket : Socket)

open SendEvent

namespace SendEvent

def stream (network : Network) (begun : Option (Bytes × Bytes)) : Bytes :=
  match begun with
  | none => []
  | some (pszCommand, payload) => beginMessage network pszCommand ++ payload

def finished (network : Network) : SendEvent → List Bytes
  | .endMessage (some message) false _ => [finishMessage hash (stream network (some message))]
  | _ => []

end SendEvent

namespace SendBuffer

def step (network : Network) (buffer : SendBuffer) : SendEvent → Except Failure SendBuffer
  | .endMessage begun fDrop socket =>
    buffer.endMessage hash (stream network begun) fDrop socket
  | .socketSendData socket => buffer.socketSendData socket

def run (network : Network) (events : List SendEvent) :
    Except Failure SendBuffer := events.foldlM (step hash network) new

/-- The counters agree with the queue, and what was taken and what is left make up the finished
messages. -/
structure Coherent (finished : List Bytes) (buffer : SendBuffer) : Prop where
  ne_nil : ∀ data ∈ buffer.vSendMsg, data ≠ []
  nSendSize_eq : buffer.nSendSize = (buffer.vSendMsg.map List.length).sum
  nSendOffset_eq : buffer.vSendMsg = [] → buffer.nSendOffset = 0
  nSendOffset_lt : ∀ data ∈ buffer.vSendMsg.head?, buffer.nSendOffset < data.length
  accepted_append : buffer.accepted ++ buffer.vSendMsg.flatten.drop buffer.nSendOffset =
    finished.flatten
  nSendBytes_eq : buffer.nSendBytes = UInt64.ofNat buffer.accepted.length

variable {socket : Socket} {finished : List Bytes} {data : Bytes} {buffer : SendBuffer}

theorem coherent_new : new.Coherent [] := ⟨by simp [new], rfl, fun _ => rfl, by simp [new], rfl, rfl⟩

theorem accepted_take (accepted : Bytes) (rest : List Bytes) {offset nBytes : ℕ}
    (hoffset : offset + nBytes ≤ data.length) :
    accepted ++ (data.drop offset).take nBytes ++ (data :: rest).flatten.drop (offset + nBytes) =
      accepted ++ (data :: rest).flatten.drop offset := by
  rw [flatten_cons, drop_append_of_le_length hoffset,
    drop_append_of_le_length (by omega), ← drop_drop, append_assoc,
    ← append_assoc _ _ rest.flatten, take_append_drop]

theorem nSendBytes_take (accepted : Bytes) {offset nBytes : ℕ}
    (hoffset : offset + nBytes ≤ data.length) :
    UInt64.ofNat accepted.length + UInt64.ofNat nBytes =
      UInt64.ofNat (accepted ++ (data.drop offset).take nBytes).length := by
  rw [length_append, length_take, length_drop, Nat.min_eq_left (by omega), UInt64.ofNat_add]

/-- By induction on the messages left: what holds of the buffer with these as its queue holds at
the end. -/
theorem sendLoop_coherent {k : ℕ} {queue : List Bytes}
    (h : { buffer with vSendMsg := queue }.Coherent finished) :
    ∃ buffer', sendLoop socket k queue buffer = .ok buffer' ∧ buffer'.Coherent finished := by
  induction queue generalizing k buffer with
  | nil =>
    have hoffset : buffer.nSendOffset = 0 := h.nSendOffset_eq rfl
    have hsize : buffer.nSendSize = 0 := h.nSendSize_eq
    refine ⟨_, ?_, h⟩
    rw [sendLoop, if_neg (not_not_intro hoffset), if_neg (not_not_intro hsize)]
  | cons data rest ih =>
    have hlt : buffer.nSendOffset < data.length := h.nSendOffset_lt data rfl
    have haccepted : buffer.accepted ++ (data :: rest).flatten.drop buffer.nSendOffset =
      finished.flatten := h.accepted_append
    have hbytes : buffer.nSendBytes = UInt64.ofNat buffer.accepted.length := h.nSendBytes_eq
    rw [sendLoop, if_neg (not_le.mpr hlt)]
    cases hsend : socket.send k (data.length - buffer.nSendOffset) with
    | error nErr => exact ⟨_, rfl, h.ne_nil, h.nSendSize_eq, h.nSendOffset_eq,
        h.nSendOffset_lt, h.accepted_append, h.nSendBytes_eq⟩
    | bytes nBytes =>
      have hfits : buffer.nSendOffset + nBytes ≤ data.length := by
        have hle := socket.send_le _ _ _ hsend
        omega
      have htaken := accepted_take buffer.accepted rest hfits
      have hcount := nSendBytes_take buffer.accepted hfits
      rw [haccepted] at htaken
      rw [← hbytes] at hcount
      dsimp only
      split_ifs with hzero hfull
      · exact ⟨_, rfl, h⟩
      · refine ih ⟨fun other hother => h.ne_nil other (mem_cons_of_mem _ hother), ?_,
          fun _ => rfl, ?_, ?_, hcount⟩
        · have hsize : buffer.nSendSize = data.length + (rest.map List.length).sum :=
            h.nSendSize_eq
          change buffer.nSendSize - data.length = _
          rw [hsize, Nat.add_sub_cancel_left]
        · intro other hother
          exact length_pos_iff.mpr (h.ne_nil other (mem_cons_of_mem _ (mem_of_mem_head? hother)))
        · rw [hfull, flatten_cons, drop_left] at htaken
          exact htaken
      · refine ⟨_, rfl, h.ne_nil, h.nSendSize_eq, fun hnil => ?_, ?_, htaken, hcount⟩
        · cases hnil
        · intro other hother
          cases hother
          change buffer.nSendOffset + nBytes < data.length
          exact lt_of_le_of_ne hfits hfull

theorem socketSendData_coherent (socket : Socket) (h : buffer.Coherent finished) :
    ∃ buffer', buffer.socketSendData socket = .ok buffer' ∧ buffer'.Coherent finished :=
  sendLoop_coherent h

theorem Coherent.push (h : buffer.Coherent finished) (hdata : data ≠ []) : { buffer with
      vSendMsg := buffer.vSendMsg ++ [data]
      nSendSize := buffer.nSendSize + data.length }.Coherent (finished ++ [data]) := by
  have hoffset : buffer.nSendOffset ≤ buffer.vSendMsg.flatten.length := by
    cases hqueue : buffer.vSendMsg with
    | nil => exact (h.nSendOffset_eq hqueue).le
    | cons first rest =>
      have hlt := h.nSendOffset_lt first (by rw [hqueue]; rfl)
      rw [flatten_cons, length_append]
      omega
  refine ⟨?_, ?_, ?_, ?_, ?_, h.nSendBytes_eq⟩
  · intro other hother
    rcases mem_append.mp hother with hother | hother
    · exact h.ne_nil other hother
    · rw [mem_singleton.mp hother]
      exact hdata
  · simp only [map_append, map_singleton, sum_append, sum_singleton, h.nSendSize_eq]
  · intro hnil
    exact absurd hnil (by simp)
  · intro other hother
    cases hqueue : buffer.vSendMsg with
    | nil =>
      simp only [hqueue, nil_append, head?_cons, Option.mem_some_iff] at hother
      subst hother
      simp only [h.nSendOffset_eq hqueue]
      exact length_pos_iff.mpr hdata
    | cons first rest =>
      simp only [hqueue, cons_append, head?_cons, Option.mem_some_iff] at hother
      subst hother
      exact h.nSendOffset_lt first (by rw [hqueue]; rfl)
  · simp only [flatten_append, flatten_singleton,
      drop_append_of_le_length hoffset, ← h.accepted_append, append_assoc]

/-! ### Messages -/

theorem length_pchMessageStart (network : Network) : (pchMessageStart network).length = 4 := by
  cases network <;> rfl

theorem length_pchCommand (pszCommand : Bytes) : (pszCommand.take CMessageHeader.commandSize ++
      List.replicate (CMessageHeader.commandSize - pszCommand.length) 0).length = 12 := by
  simp only [length_append, length_take, length_replicate, CMessageHeader.commandSize]
  omega

theorem length_beginMessage (network : Network) (pszCommand : Bytes) :
    (beginMessage network pszCommand).length = 24 := by
  simp only [beginMessage, CMessageHeader.serialize, CMessageHeader.new, length_append,
    length_leBytes, length_pchMessageStart]
  have h := length_pchCommand pszCommand
  rw [length_append] at h
  omega

section

variable (hash : Bytes → UInt256)

theorem length_finishMessage {ssSend : Bytes} (h : 24 ≤ ssSend.length) :
    (finishMessage hash ssSend).length = ssSend.length := by
  have hsize : (overwrite ssSend CMessageHeader.messageSizeOffset (leBytes 4
      (UInt32.ofNat (ssSend.length - CMessageHeader.headerSize)).toNat)).length =
        ssSend.length := by
    refine length_overwrite ?_
    rw [length_leBytes, CMessageHeader.messageSizeOffset]
    omega
  rw [finishMessage, length_overwrite, hsize]
  rw [length_leBytes, CMessageHeader.checksumOffset, hsize]
  omega

theorem endMessage_coherent (network : Network) (begun : Option (Bytes × Bytes)) (fDrop : Bool)
    (h : buffer.Coherent finished) :
    ∃ buffer', buffer.endMessage hash (stream network begun) fDrop socket = .ok buffer' ∧
      buffer'.Coherent
        (finished ++ SendEvent.finished hash network (.endMessage begun fDrop socket)) := by
  cases fDrop with
  | true => exact ⟨buffer, rfl, by simpa [SendEvent.finished] using h⟩
  | false =>
    cases begun with
    | none => exact ⟨buffer, rfl, by simpa [SendEvent.finished] using h⟩
    | some message =>
      have hlong : 24 ≤ (stream network (some message)).length := by
        rw [stream, length_append, length_beginMessage]
        exact Nat.le_add_right _ _
      have hdata : finishMessage hash (stream network (some message)) ≠ [] := by
        rw [← length_pos_iff, length_finishMessage hash hlong]
        omega
      have hne : stream network (some message) ≠ [] := by
        rw [← length_pos_iff]
        omega
      have hpush := h.push hdata
      rw [endMessage, if_neg Bool.false_ne_true, if_neg hne, if_neg (by rw [checksumOffset]; omega)]
      split_ifs
      · exact socketSendData_coherent socket hpush
      · exact ⟨_, rfl, hpush⟩

theorem foldlM_step_coherent (network : Network)
    (events : List SendEvent) (h : buffer.Coherent finished) :
    ∃ buffer', events.foldlM (step hash network) buffer = .ok buffer' ∧
      buffer'.Coherent (finished ++ events.flatMap (SendEvent.finished hash network)) := by
  induction events generalizing buffer finished with
  | nil => exact ⟨buffer, rfl, by simpa using h⟩
  | cons event events ih =>
    have hstep : ∃ next, step hash network buffer event = .ok next ∧
        next.Coherent (finished ++ event.finished hash network) := by
      cases event with
      | endMessage begun fDrop socket => exact endMessage_coherent hash network begun fDrop h
      | socketSendData socket =>
        obtain ⟨next, hnext, hcoherent⟩ := socketSendData_coherent socket h
        exact ⟨next, hnext, by simpa [SendEvent.finished] using hcoherent⟩
    obtain ⟨next, hnext, hcoherent⟩ := hstep
    obtain ⟨last, hlast, hfinal⟩ := ih hcoherent
    refine ⟨last, ?_, ?_⟩
    · rw [foldlM_cons, hnext]
      exact hlast
    · rw [flatMap_cons, ← append_assoc]
      exact hfinal

end

/-- For all calls and everything the socket may answer: no assertion fails, the counters agree
with the queue, and the bytes taken are a prefix of the finished messages. -/
theorem run_coherent (hash : Bytes → UInt256) (network : Network) (events : List SendEvent) :
    ∃ buffer, run hash network events = .ok buffer ∧
      buffer.Coherent (events.flatMap (SendEvent.finished hash network)) ∧
      buffer.accepted <+: (events.flatMap (SendEvent.finished hash network)).flatten := by
  obtain ⟨buffer, hrun, hcoherent⟩ := foldlM_step_coherent hash network events coherent_new
  rw [List.nil_append] at hcoherent
  exact ⟨buffer, hrun, hcoherent, _, hcoherent.accepted_append⟩

end SendBuffer

end Primecoin

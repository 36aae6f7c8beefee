import Primecoin.Net.SendBuffer

/-!
# Receiving messages

The bytes of a peer arrive in chunks. `receiveMsgBytes` fills the header and then the data of the
last message of the queue, and begins another one when that is complete.

What is in the queue depends only on the bytes, so the messages that a peer frames are there once
all their bytes have arrived, however they are cut.
-/

namespace Primecoin

open Codec List CMessageHeader Option

namespace CMessageHeader

/-- The command is not valid, and the size is -1. -/
def null (network : Network) : CMessageHeader :=
  ⟨Primecoin.pchMessageStart network, 0 :: 1 :: replicate 10 0, 0xffffffff, 0⟩

def read : Reader UInt8 CMessageHeader := do
  let pchMessageStart ← take 4
  let pchCommand ← take commandSize
  let nMessageSize ← readLE 4
  let nChecksum ← readLE 4
  pure ⟨pchMessageStart, pchCommand, UInt32.ofNat nMessageSize, UInt32.ofNat nChecksum⟩

end CMessageHeader

structure IncomingMessage extends CNetMessage where
  inData : Bool
  hdrbuf : Bytes
  nHdrPos : ℕ
  nDataPos : ℕ
  length_hdrbuf : hdrbuf.length = headerSize
  nHdrPos_lt : inData = false → nHdrPos < headerSize
  length_vRecv : vRecv.length = if inData then hdr.nMessageSize.toNat else 0
  nDataPos_le : nDataPos ≤ vRecv.length

namespace IncomingMessage

variable {msg : IncomingMessage} {a : Bytes}

def new (network : Network) : IncomingMessage where
  hdr := .null network
  vRecv := []
  inData := false
  hdrbuf := replicate headerSize 0
  nHdrPos := 0
  nDataPos := 0
  length_hdrbuf := rfl
  nHdrPos_lt _ := by decide
  length_vRecv := rfl
  nDataPos_le := le_rfl

section

variable (msg : IncomingMessage)

def complete : Bool :=
  msg.inData && decide (msg.hdr.nMessageSize.toNat = msg.nDataPos)

/-- A header that is too large, or that cannot be read, is an error. -/
def fillHeader (piece : Bytes)
    (hfit : msg.nHdrPos + piece.length ≤ headerSize) : Option IncomingMessage :=
  let hdrbuf := overwrite msg.hdrbuf msg.nHdrPos piece
  have hlength : hdrbuf.length = headerSize := by
    rw [length_overwrite (msg.length_hdrbuf ▸ hfit), msg.length_hdrbuf]
  if hpos : msg.nHdrPos + piece.length < headerSize then
    some { msg with
      hdrbuf := hdrbuf
      nHdrPos := msg.nHdrPos + piece.length
      length_hdrbuf := hlength
      nHdrPos_lt := fun _ => hpos }
  else
    match read hdrbuf with
    | none => none
    | some (hdr, _) =>
      if maxSize < hdr.nMessageSize.toNat then none
      else some {
        hdr := hdr
        vRecv := replicate hdr.nMessageSize.toNat 0
        inData := true
        hdrbuf := hdrbuf
        nHdrPos := msg.nHdrPos + piece.length
        nDataPos := 0
        length_hdrbuf := hlength
        nHdrPos_lt := fun h => by cases h
        length_vRecv := length_replicate
        nDataPos_le := Nat.zero_le _ }

def fillData (piece : Bytes)
    (hfit : msg.nDataPos + piece.length ≤ msg.vRecv.length) : IncomingMessage :=
  { msg with
    vRecv := overwrite msg.vRecv msg.nDataPos piece
    nDataPos := msg.nDataPos + piece.length
    length_vRecv := (length_overwrite hfit).trans msg.length_vRecv
    nDataPos_le := (length_overwrite hfit).symm ▸ hfit }

theorem add_min_le {pos size n : ℕ} (h : pos ≤ size) : pos + min (size - pos) n ≤ size := by
  omega

/-- The bytes handled, and the message. -/
def readHeader (hdata : msg.inData = false) (pch : Bytes) : Option (ℕ × IncomingMessage) :=
  let nCopy := min (headerSize - msg.nHdrPos) pch.length
  (msg.fillHeader (pch.take nCopy) (by
    rw [length_take, Nat.min_eq_left (min_le_right _ _)]
    exact add_min_le (msg.nHdrPos_lt hdata).le)).map fun msg => (nCopy, msg)

def readData (pch : Bytes) : ℕ × IncomingMessage :=
  let nCopy := min (msg.vRecv.length - msg.nDataPos) pch.length
  (nCopy, msg.fillData (pch.take nCopy) (by
    rw [length_take, Nat.min_eq_left (min_le_right _ _)]
    exact add_min_le msg.nDataPos_le))

def absorb (pch : Bytes) : Option (ℕ × IncomingMessage) :=
  if hdata : msg.inData = false then msg.readHeader hdata pch else some (msg.readData pch)

def nRemaining : ℕ :=
  if msg.inData then msg.vRecv.length - msg.nDataPos else headerSize - msg.nHdrPos

end

theorem nRemaining_pos (h : msg.complete = false) : 0 < msg.nRemaining := by
  rw [nRemaining]
  cases hdata : msg.inData with
  | false =>
    have hlt := msg.nHdrPos_lt hdata
    rw [if_neg Bool.false_ne_true]
    omega
  | true =>
    rw [complete, hdata, Bool.true_and, decide_eq_false_iff_not] at h
    have hle := msg.nDataPos_le
    have hlength := msg.length_vRecv
    rw [hdata, if_pos rfl] at hlength
    rw [if_pos rfl]
    omega

theorem absorb_handled {msg' : IncomingMessage} {pch : Bytes} {handled : ℕ}
    (h : msg.absorb pch = some (handled, msg')) : handled = min msg.nRemaining pch.length := by
  rw [absorb] at h
  split_ifs at h with hdata
  · rw [readHeader, map_eq_some_iff] at h
    obtain ⟨_, -, heq⟩ := h
    rw [nRemaining, hdata, if_neg Bool.false_ne_true]
    exact (Prod.mk.inj heq).1.symm
  · rw [Bool.not_eq_false] at hdata
    rw [nRemaining, hdata, if_pos rfl]
    exact (Prod.mk.inj (some.inj h)).1.symm

theorem nRemaining_eq_header (hdata : msg.inData = false) :
    msg.nRemaining = headerSize - msg.nHdrPos := by
  rw [nRemaining, hdata, if_neg Bool.false_ne_true]

theorem nRemaining_eq_data (hdata : ¬msg.inData = false) :
    msg.nRemaining = msg.vRecv.length - msg.nDataPos := by
  rw [nRemaining, if_pos (Bool.not_eq_false _ ▸ hdata)]

theorem absorb_append_of_le (h : msg.nRemaining ≤ a.length)
    (b : Bytes) : msg.absorb (a ++ b) = msg.absorb a := by
  have hlength : a.length ≤ (a ++ b).length := by
    rw [length_append]
    omega
  have hmin := Nat.min_eq_left h
  have hmin' := Nat.min_eq_left (h.trans hlength)
  have htake : (a ++ b).take msg.nRemaining = a.take msg.nRemaining :=
    take_append_of_le_length h
  rw [absorb, absorb]
  split_ifs with hdata
  · rw [nRemaining_eq_header hdata] at hmin hmin' htake
    simp only [readHeader, hmin, hmin', htake]
  · rw [nRemaining_eq_data hdata] at hmin hmin' htake
    simp only [readData, hmin, hmin', htake]

theorem fillHeader_append (h : msg.nHdrPos + a.length < headerSize) :
    ∃ msg', msg.fillHeader a h.le = some msg' ∧ msg'.inData = msg.inData ∧
      msg'.nHdrPos = msg.nHdrPos + a.length ∧
      ∀ c hfit hfit', msg.fillHeader (a ++ c) hfit = msg'.fillHeader c hfit' := by
  refine ⟨_, dif_pos h, rfl, rfl, fun c hfit hfit' => ?_⟩
  have hpos : msg.nHdrPos ≤ msg.hdrbuf.length := by
    rw [msg.length_hdrbuf]
    omega
  simp only [fillHeader, overwrite_overwrite a c hpos, length_append, Nat.add_assoc]

theorem min_length_append {n : ℕ} (h : a.length ≤ n) (b : Bytes) :
    min n (a ++ b).length = a.length + min (n - a.length) b.length := by
  rw [length_append]
  omega

theorem absorb_header_append (hdata : msg.inData = false)
    (h : a.length < headerSize - msg.nHdrPos) :
    ∃ msg', msg.absorb a = some (a.length, msg') ∧ msg'.complete = false ∧
      ∀ b, msg.absorb (a ++ b) = (msg'.absorb b).map fun p => (a.length + p.1, p.2) := by
  obtain ⟨msg', hfill, hdata', hpos, happend⟩ :=
    fillHeader_append (show msg.nHdrPos + a.length < headerSize by omega)
  rw [hdata] at hdata'
  refine ⟨msg', ?_, ?_, fun b => ?_⟩
  · rw [absorb, dif_pos hdata]
    simp only [readHeader, Nat.min_eq_right h.le, take_length, hfill, map_some]
  · rw [complete, hdata', Bool.false_and]
  · have hremaining : headerSize - msg'.nHdrPos = headerSize - msg.nHdrPos - a.length := by
      rw [hpos]
      omega
    have hcopy := min_length_append h.le b
    rw [absorb, absorb, dif_pos hdata, dif_pos hdata']
    simp only [readHeader, hcopy, hremaining, take_length_add_append, Option.map_map]
    rw [happend]
    rfl

theorem absorb_data_append (hdata : ¬msg.inData = false)
    (h : a.length < msg.vRecv.length - msg.nDataPos) :
    ∃ msg', msg.absorb a = some (a.length, msg') ∧ msg'.complete = false ∧
      ∀ b, msg.absorb (a ++ b) = (msg'.absorb b).map fun p => (a.length + p.1, p.2) := by
  have hfit : msg.nDataPos + a.length ≤ msg.vRecv.length := by omega
  have hdata' : ¬(msg.fillData a hfit).inData = false := hdata
  have hremaining : (msg.fillData a hfit).vRecv.length - (msg.fillData a hfit).nDataPos =
      msg.vRecv.length - msg.nDataPos - a.length := by
    simp only [fillData, length_overwrite hfit]
    omega
  refine ⟨msg.fillData a hfit, ?_, ?_, fun b => ?_⟩
  · rw [absorb, dif_neg hdata]
    simp only [readData, Nat.min_eq_right h.le, take_length]
  · have hlength := (msg.fillData a hfit).length_vRecv
    rw [if_pos (Bool.not_eq_false _ ▸ hdata')] at hlength
    rw [complete, Bool.and_eq_false_imp]
    intro _
    rw [decide_eq_false_iff_not, ← hlength]
    omega
  · have hcopy := min_length_append h.le b
    rw [absorb, absorb, dif_neg hdata, dif_neg hdata']
    simp only [readData, hcopy, hremaining, take_length_add_append, map_some]
    simp only [fillData, overwrite_overwrite a _ msg.nDataPos_le, length_append, Nat.add_assoc]

theorem absorb_append_of_lt (h : a.length < msg.nRemaining) :
    ∃ msg', msg.absorb a = some (a.length, msg') ∧ msg'.complete = false ∧
      ∀ b, msg.absorb (a ++ b) = (msg'.absorb b).map fun p => (a.length + p.1, p.2) := by
  by_cases hdata : msg.inData = false
  · rw [nRemaining_eq_header hdata] at h
    exact absorb_header_append hdata h
  · rw [nRemaining_eq_data hdata] at h
    exact absorb_data_append hdata h

end IncomingMessage

variable {network : Network} {vRecvMsg : List IncomingMessage} {pch : Bytes} {msg : IncomingMessage}

def currentMessage (network : Network) (vRecvMsg : List IncomingMessage) :
    List IncomingMessage × IncomingMessage :=
  match vRecvMsg.getLast? with
  | none => ([], .new network)
  | some msg => if msg.complete then (vRecvMsg, .new network) else (vRecvMsg.dropLast, msg)

theorem currentMessage_incomplete (network : Network) (vRecvMsg : List IncomingMessage) :
    (currentMessage network vRecvMsg).2.complete = false := by
  rw [currentMessage]
  split
  · rfl
  · split_ifs with h
    · rfl
    · exact Bool.not_eq_true _ ▸ h

theorem absorb_current_pos (hpch : pch ≠ []) {handled : ℕ}
    (h : (currentMessage network vRecvMsg).2.absorb pch = some (handled, msg)) :
    0 < handled ∧ handled ≤ pch.length := by
  have hremaining := IncomingMessage.nRemaining_pos (currentMessage_incomplete network vRecvMsg)
  have hlength := length_pos_iff.mpr hpch
  rw [IncomingMessage.absorb_handled h]
  omega

/-- `none` is the result `false`, after which the connection is closed. -/
def receiveMsgBytes (network : Network) (vRecvMsg : List IncomingMessage) (pch : Bytes) :
    Option (List IncomingMessage) :=
  if _hpch : pch = [] then some vRecvMsg
  else
    match _hread : (currentMessage network vRecvMsg).2.absorb pch with
    | none => none
    | some (handled, msg) =>
      receiveMsgBytes network ((currentMessage network vRecvMsg).1 ++ [msg]) (pch.drop handled)
termination_by pch.length
decreasing_by
  have h := absorb_current_pos _hpch _hread
  rw [length_drop]
  omega

theorem receiveMsgBytes_nil (network : Network) (vRecvMsg : List IncomingMessage) :
    receiveMsgBytes network vRecvMsg [] = some vRecvMsg := by
  rw [receiveMsgBytes, dif_pos rfl]

theorem receiveMsgBytes_of_absorb_none
    (hpch : pch ≠ []) (h : (currentMessage network vRecvMsg).2.absorb pch = none) :
    receiveMsgBytes network vRecvMsg pch = none := by
  rw [receiveMsgBytes, dif_neg hpch]
  split
  · rfl
  · rename_i heq
    rw [h] at heq
    cases heq

theorem receiveMsgBytes_of_absorb (hpch : pch ≠ []) {handled : ℕ}
    (h : (currentMessage network vRecvMsg).2.absorb pch = some (handled, msg)) :
    receiveMsgBytes network vRecvMsg pch =
      receiveMsgBytes network ((currentMessage network vRecvMsg).1 ++ [msg])
        (pch.drop handled) := by
  rw [receiveMsgBytes, dif_neg hpch]
  split
  · rename_i heq
    rw [h] at heq
    cases heq
  · rename_i heq
    rw [h] at heq
    cases heq
    rfl

theorem currentMessage_concat_incomplete (h : msg.complete = false) (done : List IncomingMessage) :
    currentMessage network (done ++ [msg]) = (done, msg) := by
  rw [currentMessage, getLast?_concat]
  simp only [h, Bool.false_eq_true, if_false, dropLast_concat]

theorem receiveMsgBytes_append (network : Network) (vRecvMsg : List IncomingMessage) (a b : Bytes) :
    receiveMsgBytes network vRecvMsg (a ++ b) =
      (receiveMsgBytes network vRecvMsg a).bind fun vRecvMsg =>
        receiveMsgBytes network vRecvMsg b := by
  -- on the length of the first part; it may end before what the current message lacks
  induction hn : a.length using Nat.strong_induction_on generalizing vRecvMsg a with
  | _ n ih =>
    by_cases ha : a = []
    · rw [ha, receiveMsgBytes_nil]
      rfl
    have hab : a ++ b ≠ [] := append_ne_nil_of_left_ne_nil ha b
    by_cases hle : (currentMessage network vRecvMsg).2.nRemaining ≤ a.length
    · have heq := IncomingMessage.absorb_append_of_le hle b
      cases hread : (currentMessage network vRecvMsg).2.absorb a with
      | none =>
        rw [receiveMsgBytes_of_absorb_none hab (heq.trans hread),
          receiveMsgBytes_of_absorb_none ha hread]
        rfl
      | some p =>
        have hpos := absorb_current_pos ha hread
        rw [receiveMsgBytes_of_absorb hab (heq.trans hread), receiveMsgBytes_of_absorb ha hread,
          drop_append_of_le_length hpos.2]
        refine ih _ ?_ _ _ rfl
        rw [length_drop]
        omega
    · obtain ⟨msg, hread, hincomplete, happend⟩ :=
        IncomingMessage.absorb_append_of_lt (not_le.mp hle)
      have hcurrent : currentMessage network ((currentMessage network vRecvMsg).1 ++ [msg]) =
          ((currentMessage network vRecvMsg).1, msg) :=
        currentMessage_concat_incomplete hincomplete _
      rw [receiveMsgBytes_of_absorb ha hread, drop_length, receiveMsgBytes_nil, bind_some]
      by_cases hb : b = []
      · rw [hb, append_nil, receiveMsgBytes_of_absorb ha hread, drop_length, receiveMsgBytes_nil]
      have hnext := happend b
      have hsecond : (currentMessage network
          ((currentMessage network vRecvMsg).1 ++ [msg])).2.absorb b = msg.absorb b := by
        rw [hcurrent]
      cases hmsg : msg.absorb b with
      | none =>
        rw [hmsg] at hnext
        rw [receiveMsgBytes_of_absorb_none hab hnext,
          receiveMsgBytes_of_absorb_none hb (hsecond.trans hmsg)]
      | some p =>
        rw [hmsg] at hnext
        rw [receiveMsgBytes_of_absorb hab hnext,
          receiveMsgBytes_of_absorb hb (hsecond.trans hmsg), hcurrent,
          drop_length_add_append]

/-! ### Framed messages -/

/-- The command is one to twelve printable characters, and the payload is not too large. -/
structure OutgoingMessage where
  command : Bytes
  payload : Bytes
  command_ne : command ≠ []
  command_le : command.length ≤ commandSize
  command_printable : ∀ b ∈ command, 0x20 ≤ b ∧ b ≤ 0x7e
  payload_le : payload.length ≤ maxSize

namespace OutgoingMessage

def frame (hash : Bytes → UInt256) (network : Network) (message : OutgoingMessage) : Bytes :=
  finishMessage hash (SendEvent.stream network (some (message.command, message.payload)))

def header (hash : Bytes → UInt256) (network : Network) (message : OutgoingMessage) :
    CMessageHeader :=
  { new network message.command (UInt32.ofNat message.payload.length) with
    nChecksum := UInt32.ofNat (hash message.payload).toNat }

/-- The message has arrived as it was sent, and `ProcessMessages` takes it up. -/
structure Delivered (hash : Bytes → UInt256) (network : Network) (message : OutgoingMessage)
    (msg : IncomingMessage) : Prop where
  complete : msg.complete = true
  isValid : msg.hdr.isValid network = true
  getCommand_eq : msg.hdr.getCommand = message.command
  vRecv_eq : msg.vRecv = message.payload
  checksum_eq : msg.checksum hash = msg.hdr.nChecksum
  scan_eq : ∀ rest, scan hash network (msg.toCNetMessage :: rest) = .message msg.toCNetMessage rest

variable (hash : Bytes → UInt256) (network : Network) (message : OutgoingMessage)
  {vRecvMsg : List IncomingMessage}

theorem length_serialize_header : (message.header hash network).serialize.length = 24 := by
  have hcommand := SendBuffer.length_pchCommand message.command
  simp only [serialize, header, new, length_append,
    length_leBytes, SendBuffer.length_pchMessageStart] at hcommand ⊢
  omega

/-- The size and the checksum are written over the two empty fields of the header. -/
theorem frame_eq :
    message.frame hash network = (message.header hash network).serialize ++ message.payload := by
  have hcommand := SendBuffer.length_pchCommand message.command
  have hstart := SendBuffer.length_pchMessageStart network
  have hhead := SendBuffer.length_beginMessage network message.command
  generalize hfront : pchMessageStart network ++
    (message.command.take commandSize ++ replicate (commandSize - message.command.length) 0) = front
  have hlength : front.length = messageSizeOffset := by
    rw [← hfront, length_append, hcommand, hstart]
    rfl
  have hbegin : beginMessage network message.command = front ++ leBytes 4 0 ++ leBytes 4 0 := by
    rw [← hfront]
    rfl
  have hsize : (beginMessage network message.command ++ message.payload).length -
      headerSize = message.payload.length := by
    rw [length_append, hhead, headerSize, Nat.add_sub_cancel_left]
  generalize hbytes : leBytes 4 (UInt32.ofNat message.payload.length).toNat = size
  have hsizeLength : size.length = 4 := hbytes ▸ length_leBytes _ _
  have hsized : overwrite (beginMessage network message.command ++ message.payload)
      messageSizeOffset size = front ++ size ++ leBytes 4 0 ++ message.payload := by
    have h := overwrite_middle front (leBytes 4 0) (leBytes 4 0 ++ message.payload)
      (hsizeLength.trans (length_leBytes 4 0).symm)
    rw [hlength] at h
    simpa only [hbegin, append_assoc] using h
  have hdrop : (front ++ size ++ leBytes 4 0 ++ message.payload).drop
      headerSize = message.payload := by
    have h : (front ++ size ++ leBytes 4 0).length = headerSize := by
      rw [length_append, length_append, hlength, hsizeLength, length_leBytes]
      rfl
    rw [← h, drop_left]
  have hchecked := overwrite_middle (front ++ size) (leBytes 4 0) message.payload
    ((length_leBytes 4 (UInt32.ofNat (hash message.payload).toNat).toNat).trans
      (length_leBytes 4 0).symm)
  have hoffset : (front ++ size).length = checksumOffset := by
    rw [length_append, hlength, hsizeLength]
    rfl
  rw [hoffset] at hchecked
  simp only [frame, SendEvent.stream, finishMessage, hsize, hbytes, hsized, hdrop, hchecked,
    serialize, header, new, hfront]

theorem read_serialize_header :
    ReadsBack read (message.header hash network).serialize (message.header hash network) := by
  have hstart : ReadsBack (take 4) (pchMessageStart network) (pchMessageStart network) := by
    have h := ReadsBack.take (pchMessageStart network)
    rwa [SendBuffer.length_pchMessageStart] at h
  have hcommand := ReadsBack.take (message.header hash network).pchCommand
  have hlength : (message.header hash network).pchCommand.length = commandSize :=
    SendBuffer.length_pchCommand message.command
  rw [hlength] at hcommand
  have hnat : ∀ n : UInt32, ReadsBack (readLE 4) (leBytes 4 n.toNat) n.toNat := fun n =>
    ReadsBack.leBytes n.toNat_lt
  have hcheck := (hnat (message.header hash network).nChecksum).map fun nChecksum =>
    (⟨pchMessageStart network, (message.header hash network).pchCommand,
      UInt32.ofNat (message.header hash network).nMessageSize.toNat,
      UInt32.ofNat nChecksum⟩ : CMessageHeader)
  rw [UInt32.ofNat_toNat, UInt32.ofNat_toNat] at hcheck
  rw [serialize, append_assoc, append_assoc]
  refine hstart.bind (hcommand.bind ((hnat _).bind ?_))
  rw [UInt32.ofNat_toNat]
  exact hcheck

theorem header_nMessageSize :
    (message.header hash network).nMessageSize.toNat = message.payload.length := by
  have h := message.payload_le
  rw [maxSize] at h
  exact UInt32.toNat_ofNat_of_lt' (by rw [UInt32.size]; omega)

theorem isValidCommand_append_replicate {command : Bytes} (n : ℕ)
    (h : ∀ b ∈ command, 0x20 ≤ b ∧ b ≤ 0x7e) :
    isValidCommand (command ++ replicate n 0) = true := by
  induction command with
  | nil =>
    cases n with
    | zero => rfl
    | succ n => simp [replicate_succ, isValidCommand]
  | cons b command ih =>
    have hb := h b (mem_cons_self ..)
    have hne : b ≠ 0 := by
      rintro rfl
      exact absurd hb.1 (by decide)
    rw [cons_append, isValidCommand, if_neg hne,
      ih fun b hb => h b (mem_cons_of_mem _ hb), Bool.and_true, Bool.and_eq_true,
      decide_eq_true_eq, decide_eq_true_eq]
    exact hb

theorem pchCommand_header : (message.header hash network).pchCommand =
    message.command ++ replicate (commandSize - message.command.length) 0 := by
  rw [header, new, take_of_length_le message.command_le]

theorem isValid_header : (message.header hash network).isValid network = true := by
  rw [isValid, pchCommand_header,
    isValidCommand_append_replicate _ message.command_printable, header_nMessageSize,
    Bool.and_true, Bool.and_eq_true, beq_iff_eq, decide_eq_true_eq]
  exact ⟨rfl, message.payload_le⟩

theorem command_no_zero : ∀ b ∈ message.command, (b != 0) = true := by
  intro b hb
  rw [bne_iff_ne]
  rintro rfl
  exact absurd (message.command_printable 0 hb).1 (by decide)

theorem getCommand_header : (message.header hash network).getCommand = message.command := by
  rw [getCommand, pchCommand_header]
  cases hn : commandSize - message.command.length with
  | zero =>
    have hlast : (message.command ++ replicate 0 0).getLast? ≠ some 0 := by
      rw [replicate_zero, append_nil]
      intro h
      exact absurd (message.command_no_zero 0 (mem_of_getLast? h)) (by decide)
    rw [if_neg hlast, replicate_zero, append_nil]
  | succ n =>
    have hlast : (message.command ++ List.replicate (n + 1) 0).getLast? = some 0 := by
      rw [replicate_succ', ← append_assoc, getLast?_concat]
    rw [if_pos hlast, takeWhile_append_of_pos message.command_no_zero,
      replicate_succ, takeWhile_cons_of_neg (by decide), append_nil]

theorem delivered_of_hdr {msg : IncomingMessage} (hcomplete : msg.complete = true)
    (hhdr : msg.hdr = message.header hash network) (hdata : msg.vRecv = message.payload) :
    message.Delivered hash network msg := by
  have hvalid : msg.hdr.isValid network = true := hhdr ▸ message.isValid_header hash network
  have hchecksum : msg.checksum hash = msg.hdr.nChecksum := by
    rw [CNetMessage.checksum, hhdr, hdata, header_nMessageSize, take_length]
    rfl
  refine ⟨hcomplete, hvalid, hhdr ▸ message.getCommand_header hash network, hdata, hchecksum, ?_⟩
  intro rest
  have hstart : msg.hdr.pchMessageStart = pchMessageStart network := by
    rw [hhdr]
    rfl
  rw [scan, if_neg (not_not_intro hstart), hvalid, Bool.not_true, if_neg Bool.false_ne_true,
    if_neg (not_not_intro hchecksum)]

theorem absorb_header : ∃ msg, (IncomingMessage.new network).absorb
      (message.header hash network).serialize = some (24, msg) ∧
    msg.inData = true ∧ msg.hdr = message.header hash network ∧ msg.nDataPos = 0 := by
  have hlength := message.length_serialize_header hash network
  have hbuf : overwrite (IncomingMessage.new network).hdrbuf (IncomingMessage.new network).nHdrPos
      (message.header hash network).serialize = (message.header hash network).serialize :=
    overwrite_zero (hlength.trans length_replicate.symm)
  have hread := message.read_serialize_header hash network []
  rw [append_nil, ← hbuf] at hread
  have hsize : ¬maxSize < (message.header hash network).nMessageSize.toNat := by
    rw [header_nMessageSize]
    exact not_lt.mpr message.payload_le
  have hpos : (IncomingMessage.new network).nHdrPos +
      (message.header hash network).serialize.length = headerSize := by
    rw [hlength]
    rfl
  have hcopy : min (headerSize - (IncomingMessage.new network).nHdrPos)
      (message.header hash network).serialize.length = 24 := by
    rw [hlength]
    rfl
  have htake : (message.header hash network).serialize.take 24 =
      (message.header hash network).serialize := take_of_length_le hlength.le
  have hdata : (IncomingMessage.new network).inData = false := rfl
  rw [IncomingMessage.absorb, dif_pos hdata]
  simp only [IncomingMessage.readHeader, hcopy, htake, IncomingMessage.fillHeader,
    dif_neg hpos.not_lt, hread, if_neg hsize, map_some]
  exact ⟨_, rfl, rfl, rfl, rfl⟩

theorem absorb_payload {msg : IncomingMessage} (hdata : msg.inData = true)
    (hhdr : msg.hdr = message.header hash network) (hpos : msg.nDataPos = 0) :
    ∃ msg', msg.absorb message.payload = some (message.payload.length, msg') ∧
      message.Delivered hash network msg' := by
  have hlength : msg.vRecv.length = message.payload.length := by
    rw [msg.length_vRecv, if_pos hdata, hhdr, header_nMessageSize]
  have hfit : msg.nDataPos + message.payload.length ≤ msg.vRecv.length := by omega
  refine ⟨msg.fillData message.payload hfit, ?_, ?_⟩
  · have hcopy : min (msg.vRecv.length - msg.nDataPos) message.payload.length =
        message.payload.length := by omega
    rw [IncomingMessage.absorb, dif_neg (Bool.not_eq_false _ ▸ hdata)]
    simp only [IncomingMessage.readData, hcopy, take_length]
  · refine message.delivered_of_hdr hash network ?_ hhdr ?_
    · simp only [IncomingMessage.complete, IncomingMessage.fillData, hdata, hhdr,
        header_nMessageSize, hpos, Nat.zero_add, decide_true, Bool.and_true]
    · simp only [IncomingMessage.fillData, hpos]
      exact overwrite_zero hlength.symm

theorem currentMessage_of_complete (h : ∀ msg ∈ vRecvMsg, msg.complete = true) :
    currentMessage network vRecvMsg = (vRecvMsg, .new network) := by
  rw [currentMessage]
  split
  · rename_i hlast
    rw [getLast?_eq_none_iff] at hlast
    rw [hlast]
  · rename_i msg hlast
    rw [if_pos (h msg (mem_of_getLast? hlast))]

theorem receiveMsgBytes_frame (h : ∀ msg ∈ vRecvMsg, msg.complete = true) :
    ∃ msg, receiveMsgBytes network vRecvMsg (message.frame hash network) =
        some (vRecvMsg ++ [msg]) ∧ message.Delivered hash network msg := by
  have hlength := message.length_serialize_header hash network
  have hcurrent := currentMessage_of_complete network h
  obtain ⟨msg, habsorb, hdata, hhdr, hpos⟩ := message.absorb_header hash network
  have hheader : receiveMsgBytes network vRecvMsg (message.header hash network).serialize =
      some (vRecvMsg ++ [msg]) := by
    have hne : (message.header hash network).serialize ≠ [] := by
      rw [← length_pos_iff, hlength]
      decide
    have hread : (currentMessage network vRecvMsg).2.absorb
        (message.header hash network).serialize = some (24, msg) := by
      rw [hcurrent]
      exact habsorb
    rw [receiveMsgBytes_of_absorb hne hread, drop_of_length_le hlength.le,
      receiveMsgBytes_nil, hcurrent]
  rw [frame_eq, receiveMsgBytes_append, hheader, bind_some]
  by_cases hpayload : message.payload = []
  -- without a payload the message is complete as soon as its header is
  · have hsize : msg.hdr.nMessageSize.toNat = 0 := by
      rw [hhdr, header_nMessageSize, hpayload]
      rfl
    have hempty : msg.vRecv = message.payload := by
      rw [hpayload, ← length_eq_zero_iff, msg.length_vRecv, if_pos hdata, hsize]
    refine ⟨msg, ?_, message.delivered_of_hdr hash network ?_ hhdr hempty⟩
    · rw [hpayload, receiveMsgBytes_nil]
    · rw [IncomingMessage.complete, hdata, hsize, hpos]
      rfl
  · obtain ⟨msg', habsorb', hdelivered⟩ := message.absorb_payload hash network hdata hhdr hpos
    have hincomplete : msg.complete = false := by
      rw [IncomingMessage.complete, hdata, Bool.true_and, decide_eq_false_iff_not, hhdr,
        header_nMessageSize, hpos, length_eq_zero_iff]
      exact hpayload
    have hcurrent' : currentMessage network (vRecvMsg ++ [msg]) = (vRecvMsg, msg) :=
      currentMessage_concat_incomplete hincomplete vRecvMsg
    have hread : (currentMessage network (vRecvMsg ++ [msg])).2.absorb message.payload =
        some (message.payload.length, msg') := by
      rw [hcurrent']
      exact habsorb'
    refine ⟨msg', ?_, hdelivered⟩
    rw [receiveMsgBytes_of_absorb hpayload hread, drop_length, receiveMsgBytes_nil, hcurrent']

theorem receiveMsgBytes_frames (messages : List OutgoingMessage)
    (h : ∀ msg ∈ vRecvMsg, msg.complete = true) :
    ∃ delivered, receiveMsgBytes network vRecvMsg
        (messages.flatMap (OutgoingMessage.frame hash network)) = some (vRecvMsg ++ delivered) ∧
      Forall₂ (OutgoingMessage.Delivered hash network) messages delivered := by
  induction messages generalizing vRecvMsg with
  | nil => exact ⟨[], by rw [flatMap_nil, receiveMsgBytes_nil, append_nil], .nil⟩
  | cons message messages ih =>
    obtain ⟨msg, hframe, hdelivered⟩ := message.receiveMsgBytes_frame hash network h
    have hcomplete : ∀ msg' ∈ vRecvMsg ++ [msg], msg'.complete = true := by
      intro msg' hmsg'
      rcases mem_append.mp hmsg' with hmsg' | hmsg'
      · exact h msg' hmsg'
      · rw [mem_singleton.mp hmsg']
        exact hdelivered.complete
    obtain ⟨delivered, hrest, hall⟩ := ih hcomplete
    refine ⟨msg :: delivered, ?_, .cons hdelivered hall⟩
    rw [flatMap_cons, receiveMsgBytes_append, hframe, bind_some, hrest, append_assoc]
    rfl

end OutgoingMessage

/-- However the bytes of framed messages are cut into chunks, each chunk is taken, and in the end
the queue has just these messages. -/
theorem receiveMsgBytes_delivers (hash : Bytes → UInt256) (network : Network)
    (messages : List OutgoingMessage) (chunks : List Bytes)
    (hchunks : chunks.flatten = messages.flatMap (OutgoingMessage.frame hash network)) :
    ∃ vRecvMsg, chunks.foldlM (receiveMsgBytes network) [] = some vRecvMsg ∧
      Forall₂ (OutgoingMessage.Delivered hash network) messages vRecvMsg := by
  obtain ⟨delivered, hreceive, hall⟩ :=
    OutgoingMessage.receiveMsgBytes_frames hash network messages (forall_mem_nil _)
  refine ⟨delivered, ?_, hall⟩
  rw [foldlM_eq_flatten (receiveMsgBytes_nil network) (receiveMsgBytes_append network), hchunks,
    hreceive, nil_append]

namespace Sample

def payloadHash (bytes : Bytes) : UInt256 :=
  if bytes = [] then 0x56944c5d3f98413ef45cf54545538103cc9f298e0575820ad3591376e2e0f65d
  else if bytes = [1, 2, 3, 4, 5, 6, 7, 8] then
    0x5a29f8789d5891ce6363a820548830c0243631c031cdb4ed44b1892294fa0225
  else 0

def verack : OutgoingMessage where
  command := ascii ['v', 'e', 'r', 'a', 'c', 'k']
  payload := []
  command_ne := by decide
  command_le := by decide
  command_printable := forall_iff_forall_mem.mp (by decide)
  payload_le := by decide

def ping : OutgoingMessage where
  command := ascii ['p', 'i', 'n', 'g']
  payload := [1, 2, 3, 4, 5, 6, 7, 8]
  command_ne := by decide
  command_le := by decide
  command_printable := forall_iff_forall_mem.mp (by decide)
  payload_le := by decide

/-- The two messages, cut within the first header and within the second payload. -/
def handshakeChunks : List Bytes :=
  [[0xe4, 0xe7, 0xe5, 0xe7, 0x76, 0x65, 0x72, 0x61],
   [0x63, 0x6b, 0, 0, 0, 0, 0, 0, 0, 0, 0, 0, 0x5d, 0xf6, 0xe0, 0xe2,
    0xe4, 0xe7, 0xe5, 0xe7, 0x70, 0x69, 0x6e, 0x67, 0, 0, 0, 0, 0, 0, 0, 0, 8, 0, 0, 0,
    0x25, 0x02, 0xfa, 0x94, 1, 2, 3],
   [4, 5, 6, 7, 8]]

end Sample

theorem receiveMsgBytes_delivers_handshake :
    ∃ vRecvMsg, Sample.handshakeChunks.foldlM (receiveMsgBytes .official) [] = some vRecvMsg ∧
      Forall₂ (OutgoingMessage.Delivered Sample.payloadHash .official)
        [Sample.verack, Sample.ping] vRecvMsg :=
  receiveMsgBytes_delivers Sample.payloadHash .official [Sample.verack, Sample.ping]
    Sample.handshakeChunks (by decide)

end Primecoin

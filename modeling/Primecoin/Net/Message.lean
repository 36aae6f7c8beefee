import Primecoin.Basic

/-!
# Messages between nodes

`scan` is the part of `ProcessMessages` that looks for the next message to process: it skips
messages with a bad header or checksum and gives up at the first one with the wrong start bytes.
Only messages that have arrived completely are in the queue.
-/

namespace Primecoin

inductive Command
  | version
  | verack
  | addr
  | inv
  | getdata
  | getblocks
  | getheaders
  | tx
  | block
  | getaddr
  | mempool
  | ping
  | filterload
  | filteradd
  | filterclear
  | unknown
  deriving DecidableEq, Repr

def ascii (text : List Char) : Bytes := text.map fun c => UInt8.ofNat c.toNat

namespace Command

def names : List (Bytes × Command) :=
  [(ascii ['v', 'e', 'r', 's', 'i', 'o', 'n'], .version),
   (ascii ['v', 'e', 'r', 'a', 'c', 'k'], .verack),
   (ascii ['a', 'd', 'd', 'r'], .addr),
   (ascii ['i', 'n', 'v'], .inv),
   (ascii ['g', 'e', 't', 'd', 'a', 't', 'a'], .getdata),
   (ascii ['g', 'e', 't', 'b', 'l', 'o', 'c', 'k', 's'], .getblocks),
   (ascii ['g', 'e', 't', 'h', 'e', 'a', 'd', 'e', 'r', 's'], .getheaders),
   (ascii ['t', 'x'], .tx),
   (ascii ['b', 'l', 'o', 'c', 'k'], .block),
   (ascii ['g', 'e', 't', 'a', 'd', 'd', 'r'], .getaddr),
   (ascii ['m', 'e', 'm', 'p', 'o', 'o', 'l'], .mempool),
   (ascii ['p', 'i', 'n', 'g'], .ping),
   (ascii ['f', 'i', 'l', 't', 'e', 'r', 'l', 'o', 'a', 'd'], .filterload),
   (ascii ['f', 'i', 'l', 't', 'e', 'r', 'a', 'd', 'd'], .filteradd),
   (ascii ['f', 'i', 'l', 't', 'e', 'r', 'c', 'l', 'e', 'a', 'r'], .filterclear)]

def ofBytes (strCommand : Bytes) : Command := (names.lookup strCommand).getD .unknown

end Command

/-- The unused bytes of `pchCommand` at the end are zero. -/
structure CMessageHeader where
  pchMessageStart : Bytes
  pchCommand : Bytes
  nMessageSize : UInt32
  nChecksum : UInt32
  deriving DecidableEq, Repr

namespace CMessageHeader

def getCommand (hdr : CMessageHeader) : Bytes :=
  if hdr.pchCommand.getLast? = some 0 then hdr.pchCommand.takeWhile (· != 0)
  else hdr.pchCommand

/-- Printable characters, then zeros only. -/
def isValidCommand : Bytes → Bool
  | [] => true
  | b :: bs =>
    if b = 0 then bs.all (· == 0)
    else 0x20 ≤ b && b ≤ 0x7e && isValidCommand bs

def isValid (network : Network) (hdr : CMessageHeader) : Bool :=
  hdr.pchMessageStart == Primecoin.pchMessageStart network && isValidCommand hdr.pchCommand &&
    hdr.nMessageSize.toNat ≤ maxSize

end CMessageHeader

structure CNetMessage where
  hdr : CMessageHeader
  vRecv : Bytes
  deriving DecidableEq, Repr

def CNetMessage.command (msg : CNetMessage) : Command := .ofBytes msg.hdr.getCommand

def CNetMessage.checksum (hash : Bytes → UInt256) (msg : CNetMessage) : UInt32 :=
  UInt32.ofNat (hash (msg.vRecv.take msg.hdr.nMessageSize.toNat)).toNat

/-- What the loop of `ProcessMessages` comes to, with what is left of the queue. -/
inductive Scan
  | none
  | badStart (rest : List CNetMessage)
  | message (msg : CNetMessage) (rest : List CNetMessage)
  deriving DecidableEq, Repr

def scan (hash : Bytes → UInt256) (network : Network) : List CNetMessage → Scan
  | [] => .none
  | msg :: rest =>
    if msg.hdr.pchMessageStart ≠ pchMessageStart network then .badStart rest
    else if !msg.hdr.isValid network then scan hash network rest
    else if msg.checksum hash ≠ msg.hdr.nChecksum then scan hash network rest
    else .message msg rest

end Primecoin

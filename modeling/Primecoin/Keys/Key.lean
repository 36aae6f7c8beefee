import Primecoin.Basic
import Primecoin.Codec.LittleEndian

/-!
# Keys

`CKey` wraps a key of the elliptic curve library. Whether the public key is written compressed is
kept twice: as the conversion form of the library's key, which is what `GetPubKey` writes, and in
`fCompressedPubKey`, which is what `GetSecret` hands out and `SetSecret` looks at. The two are not
always changed together.

The arithmetic of the curve and what reads and writes keys are left open. A point is written in the
documented format.
-/

namespace Primecoin

open Codec Function

/-- A point of the curve; `none` is the point at infinity. -/
abbrev ECPoint := Option (ℕ × ℕ)

/-- The forms `POINT_CONVERSION_COMPRESSED`, `_UNCOMPRESSED` and `_HYBRID`. -/
inductive PointForm
  | compressed
  | uncompressed
  | hybrid
  deriving DecidableEq, Repr

def PointForm.ofFlag (fCompressed : Bool) : PointForm :=
  if fCompressed then .compressed else .uncompressed

def beBytes (w n : ℕ) : Bytes := (leBytes w n).reverse

def beNat (bytes : Bytes) : ℕ := leNat bytes.reverse

theorem beNat_beBytes {w n : ℕ} (hn : n < 256 ^ w) : beNat (beBytes w n) = n := by
  rw [beNat, beBytes, List.reverse_reverse, leNat_leBytes, Nat.mod_eq_of_lt hn]

theorem beNat_lt {bytes : Bytes} {w : ℕ} (h : bytes.length = w) : beNat bytes < 256 ^ w := by
  rw [beNat, ← h, ← List.length_reverse]
  exact leNat_lt bytes.reverse

@[simp] theorem length_beBytes (w n : ℕ) : (beBytes w n).length = w := by
  rw [beBytes, List.length_reverse, length_leBytes]

/-- The documented format of a point. -/
def ECPoint.octets : PointForm → ECPoint → Bytes
  | _, none => [0]
  | .compressed, some (x, y) => UInt8.ofNat (2 + y % 2) :: beBytes 32 x
  | .uncompressed, some (x, y) => 4 :: (beBytes 32 x ++ beBytes 32 y)
  | .hybrid, some (x, y) => UInt8.ofNat (6 + y % 2) :: (beBytes 32 x ++ beBytes 32 y)

/-- Two forms of a point differ, unless it is the point at infinity. -/
theorem ECPoint.octets_eq_iff {f g : PointForm} {p : ECPoint} :
    ECPoint.octets f p = ECPoint.octets g p ↔ f = g ∨ p = none := by
  cases p with
  | none => exact ⟨fun _ => Or.inr rfl, fun _ => rfl⟩
  | some p =>
    obtain ⟨x, y⟩ := p
    refine ⟨fun h => Or.inl ?_, ?_⟩
    · have hlength := congrArg List.length h
      have hhead := congrArg (fun l : Bytes => l.head?.map UInt8.toNat) h
      rcases Nat.mod_two_eq_zero_or_one y with hy | hy <;> cases f <;> cases g <;>
        simp [ECPoint.octets, hy] at hlength hhead ⊢
    · rintro (rfl | hnone)
      · rfl
      · cases hnone

theorem ECPoint.length_octets_eq_iff {f : PointForm} {p : ECPoint} :
    (ECPoint.octets f p).length = 33 ↔ f = .compressed ∧ p ≠ none := by
  cases p with
  | none => simp [ECPoint.octets]
  | some p => cases f <;> simp [ECPoint.octets]

structure ECKey where
  priv : Option ℕ
  pub : Option ECPoint
  form : PointForm
  deriving DecidableEq, Repr

def ECKey.new : ECKey := ⟨none, none, .uncompressed⟩

/-- `mulG` gives the multiples of the generator, and the parsers fill in a key they are given. -/
structure ECLibrary where
  order : ℕ
  mulG : ℕ → ECPoint
  d2iECPrivateKey : ECKey → Bytes → Option ECKey
  o2iECPublicKey : ECKey → Bytes → Option ECKey
  i2oECPublicKey : PointForm → ECPoint → Bytes
  checkKey : ECKey → Bool
  order_le : order ≤ 256 ^ 32
  -- a key that passes the check has a private key in range, with the public key that belongs to it
  checkKey_priv : ∀ pkey, checkKey pkey = true → ∀ n, pkey.priv = some n →
    n < order ∧ pkey.pub = some (mulG n)
  i2oECPublicKey_eq : ∀ form p, i2oECPublicKey form p = ECPoint.octets form p
  -- the octets of a point of the curve can be read again
  o2iECPublicKey_octets : ∀ pkey form n, ∃ pkey',
    o2iECPublicKey pkey (ECPoint.octets form (mulG n)) = some pkey' ∧ pkey'.pub = some (mulG n)

variable (lib : ECLibrary)

theorem ECLibrary.mulG_eq_of_octets_eq {f g : PointForm} {m n : ℕ}
    (h : ECPoint.octets f (lib.mulG m) = ECPoint.octets g (lib.mulG n)) :
    lib.mulG m = lib.mulG n := by
  obtain ⟨pkey, hread, hpub⟩ := lib.o2iECPublicKey_octets .new f m
  obtain ⟨pkey', hread', hpub'⟩ := lib.o2iECPublicKey_octets .new g n
  rw [h, hread', Option.some.injEq] at hread
  rw [← hread, hpub', Option.some.injEq] at hpub
  exact hpub.symm

structure CKey where
  pkey : ECKey
  fSet : Bool
  fCompressedPubKey : Bool
  deriving DecidableEq, Repr

namespace CKey

/-- `CKey()`, which is `Reset`. -/
def new : CKey := ⟨.new, false, false⟩

def setCompressedPubKey (fCompressed : Bool) (key : CKey) : CKey :=
  -- the flag is set whatever the argument says
  { key with pkey := { key.pkey with form := .ofFlag fCompressed }, fCompressedPubKey := true }

/-- `CKey(const CKey&)` does not initialize `fCompressedPubKey`. -/
def copy (fUninitialized : Bool) (b : CKey) : CKey := ⟨b.pkey, b.fSet, fUninitialized⟩

def assign (key b : CKey) : CKey := { key with pkey := b.pkey, fSet := b.fSet }

/-- `n` is the private key that `EC_KEY_generate_key` draws. -/
def makeNewKey (n : Fin lib.order) (fCompressed : Bool) (key : CKey) : CKey :=
  let key := { key with pkey := { key.pkey with priv := some n, pub := some (lib.mulG n) } }
  { if fCompressed then key.setCompressedPubKey true else key with fSet := true }

def setPrivKey (vchPrivKey : Bytes) (key : CKey) : Bool × CKey :=
  match lib.d2iECPrivateKey key.pkey vchPrivKey with
  | some pkey =>
    if lib.checkKey pkey then (true, { key with pkey := pkey, fSet := true }) else (false, new)
  | none => (false, new)

def regenerateKey (n : ℕ) (pkey : ECKey) : ECKey :=
  { pkey with priv := some n, pub := some (lib.mulG n) }

def setSecret (vchSecret : Bytes) (fCompressed : Bool) (key : CKey) : Except Failure Bool × CKey :=
  let key := { key with pkey := .new }
  if vchSecret.length ≠ 32 then
    (.error (.exception "CKey::SetSecret() : secret must be 32 bytes"), key)
  else
    let key := { key with pkey := regenerateKey lib (beNat vchSecret) key.pkey, fSet := true }
    (.ok true, if fCompressed || key.fCompressedPubKey then key.setCompressedPubKey true else key)

/-- The number of bytes is taken before the null pointer is looked at, and a key of more than 32
bytes is written before the start of the buffer. -/
def getSecret (key : CKey) : Except Failure (Bytes × Bool) :=
  match key.pkey.priv with
  | none => .error (.fault "CKey::GetSecret() : null pointer")
  | some n =>
    if n < 256 ^ 32 then .ok (beBytes 32 n, key.fCompressedPubKey)
    else .error (.fault "CKey::GetSecret() : write before the buffer")

def setPubKey (vchPubKey : Bytes) (key : CKey) : Bool × CKey :=
  match lib.o2iECPublicKey key.pkey vchPubKey with
  | some pkey =>
    let key := { key with pkey := pkey, fSet := true }
    (true, if vchPubKey.length = 33 then key.setCompressedPubKey true else key)
  | none => (false, new)

def getPubKey (key : CKey) : Except Failure Bytes :=
  match key.pkey.pub with
  | none => .error (.exception "CKey::GetPubKey() : i2o_ECPublicKey failed")
  | some p => .ok (lib.i2oECPublicKey key.pkey.form p)

/-! ### Histories -/

inductive Op (lib : ECLibrary)
  | construct (i : ℕ)
  | copy (i j : ℕ) (fUninitialized : Bool)
  | assign (i j : ℕ)
  | makeNewKey (i : ℕ) (n : Fin lib.order) (fCompressed : Bool)
  | setSecret (i : ℕ) (vchSecret : Bytes) (fCompressed : Bool)
  | setPrivKey (i : ℕ) (vchPrivKey : Bytes)
  | setCompressedPubKey (i : ℕ) (fCompressed : Bool)

variable {lib : ECLibrary}

def step (keys : ℕ → CKey) : Op lib → ℕ → CKey
  | .construct i => update keys i new
  | .copy i j fUninitialized => update keys i ((keys j).copy fUninitialized)
  | .assign i j => update keys i ((keys i).assign (keys j))
  | .makeNewKey i n fCompressed => update keys i ((keys i).makeNewKey lib n fCompressed)
  | .setSecret i vchSecret fCompressed =>
    update keys i ((keys i).setSecret lib vchSecret fCompressed).2
  | .setPrivKey i vchPrivKey => update keys i ((keys i).setPrivKey lib vchPrivKey).2
  | .setCompressedPubKey i fCompressed =>
    update keys i ((keys i).setCompressedPubKey fCompressed)

def run (ops : List (Op lib)) : ℕ → CKey :=
  ops.foldl step fun _ => new

/-- A private key has 32 bytes and comes with the public key that belongs to it. -/
def Sound (lib : ECLibrary) (key : CKey) : Prop :=
  ∀ n, key.pkey.priv = some n → n < 256 ^ 32 ∧ key.pkey.pub = some (lib.mulG n)

variable {key : CKey}

/-- A new key of the library, in the form of the flags of the call and of the object. -/
theorem setSecret_eq {vchSecret : Bytes} (h : vchSecret.length = 32) (fCompressed : Bool)
    (key : CKey) :
    key.setSecret lib vchSecret fCompressed =
      (.ok true, ⟨⟨some (beNat vchSecret), some (lib.mulG (beNat vchSecret)),
        .ofFlag (fCompressed || key.fCompressedPubKey)⟩, true,
          fCompressed || key.fCompressedPubKey⟩) := by
  rw [setSecret]
  simp only [h, ne_eq, not_true_eq_false, if_false]
  cases fCompressed <;> cases hflag : key.fCompressedPubKey <;>
    simp [setCompressedPubKey, regenerateKey, ECKey.new, PointForm.ofFlag]

/-- The key has the private key `n`, with the public key that belongs to it. -/
structure Has (lib : ECLibrary) (key : CKey) (n : ℕ) : Prop where
  lt : n < 256 ^ 32
  priv : key.pkey.priv = some n
  pub : key.pkey.pub = some (lib.mulG n)

theorem Has.getSecret_eq {n : ℕ} (h : key.Has lib n) :
    key.getSecret = .ok (beBytes 32 n, key.fCompressedPubKey) := by
  rw [getSecret, h.priv]
  exact if_pos h.lt

theorem getPubKey_of_pub {p : ECPoint} (h : key.pkey.pub = some p) :
    key.getPubKey lib = .ok (ECPoint.octets key.pkey.form p) := by
  rw [getPubKey, h, ← lib.i2oECPublicKey_eq]

theorem Has.getPubKey_eq {n : ℕ} (h : key.Has lib n) :
    key.getPubKey lib = .ok (ECPoint.octets key.pkey.form (lib.mulG n)) := getPubKey_of_pub h.pub

end CKey

end Primecoin

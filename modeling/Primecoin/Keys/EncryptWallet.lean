import Primecoin.Control.Stateful
import Primecoin.Keys.History

/-!
# Encrypting a wallet

`EncryptWallet` makes a master key, encrypts it under the passphrase, and encrypts all keys under
it. If it returns false the wallet should be as it was.

The master key is entered in `mapMasterKeys` and the database object made before the database
transaction is begun. When that fails both stay behind.
-/

namespace Primecoin

open Codec Stateful

structure CMasterKey where
  vchCryptedKey : Bytes
  vchSalt : Bytes
  nDerivationMethod : UInt32
  nDeriveIterations : UInt32
  vchOtherDerivationParameters : Bytes
  deriving DecidableEq

/-- What `EncryptWallet` writes. The open database object is a number, and a new one is another
than the one before. -/
structure CryptoWallet where
  store : CCryptoKeyStore
  mapMasterKeys : UInt32 → Option CMasterKey
  nMasterKeyMaxID : UInt32
  fFileBacked : Bool
  pwalletdbEncryption : Option ℕ

/-- The random bytes, the rounds that the time measurement gives, `EVP_BytesToKey`, and whether
the database can be opened, begins a transaction, writes the encrypted keys and commits.
`newKeyPool` is all that follows the commit. -/
structure EncryptIo where
  vMasterKey : Bytes
  vchSalt : Bytes
  nDeriveIterations : UInt32
  bytesToKey : Bytes → Bytes → UInt32 → Option (Bytes × Bytes)
  fOpen : Bool
  fTxnBegin : Bool
  fWritten : Bool
  fTxnCommit : Bool
  newKeyPool : Stateful CryptoWallet Failure Unit

def EncryptIo.setKeyFromPassphrase (io : EncryptIo) (strKeyData chSalt : Bytes)
    (nRounds nDerivationMethod : UInt32) : Option (Bytes × Bytes) :=
  if nRounds < 1 ∨ chSalt.length ≠ 8 then none
  else if nDerivationMethod = 0 then io.bytesToKey chSalt strKeyData nRounds
  else none

def EncryptIo.kMasterKey (ctx : KeyStoreContext) (io : EncryptIo) (strWalletPassphrase : Bytes) :
    Option CMasterKey := do
  let nDeriveIterations := if io.nDeriveIterations < 25000 then 25000 else io.nDeriveIterations
  let (chKey, chIV) ← io.setKeyFromPassphrase strWalletPassphrase io.vchSalt nDeriveIterations 0
  let vchCryptedKey ← ctx.encrypt chKey chIV io.vMasterKey
  some ⟨vchCryptedKey, io.vchSalt, 0, nDeriveIterations, []⟩

namespace CryptoWallet

def addMasterKey (kMasterKey : CMasterKey) (wallet : CryptoWallet) : CryptoWallet :=
  { wallet with
    mapMasterKeys := Function.update wallet.mapMasterKeys (wallet.nMasterKeyMaxID + 1)
      (some kMasterKey)
    nMasterKeyMaxID := wallet.nMasterKeyMaxID + 1 }

def openDB (wallet : CryptoWallet) : CryptoWallet :=
  { wallet with pwalletdbEncryption := some (wallet.pwalletdbEncryption.elim 0 (· + 1)) }

variable (ctx : KeyStoreContext) (io : EncryptIo)

/-- In a transaction if there is a file. Where the keys cannot be encrypted or committed, the
process exits. -/
def encryptAndCommit : Stateful CryptoWallet Failure Bool := do
  let wallet ← get
  modify fun wallet => { wallet with store := (wallet.store.encryptKeys ctx io.vMasterKey).2 }
  let fEncrypted ← lift (wallet.store.encryptKeys ctx io.vMasterKey).1
  if !fEncrypted ∨ (wallet.fFileBacked ∧ !io.fWritten) then lift (.error (.fault "exit(1)"))
  else if wallet.fFileBacked ∧ !io.fTxnCommit then lift (.error (.fault "exit(1)"))
  else
    modify fun wallet => { wallet with
      pwalletdbEncryption := if wallet.fFileBacked then none else wallet.pwalletdbEncryption }
    io.newKeyPool
    pure true

def encryptWallet (strWalletPassphrase : Bytes) : Stateful CryptoWallet Failure Bool := do
  let wallet ← get
  if wallet.store.fUseCrypto then pure false
  else
    match io.kMasterKey ctx strWalletPassphrase with
    | none => pure false
    | some kMasterKey =>
      modify (addMasterKey kMasterKey)
      if wallet.fFileBacked then
        if !io.fOpen then lift (.error (.exception "CDB() : can't open database file %s, error %d"))
        else
          modify openDB
          if !io.fTxnBegin then pure false else encryptAndCommit ctx io
      else encryptAndCommit ctx io

variable {ctx io} {wallet wallet' : CryptoWallet}

theorem encryptAndCommit_ne_false : (encryptAndCommit ctx io).run wallet ≠ (.ok false, wallet') := by
  intro h
  rw [encryptAndCommit, run_get_bind, run_modify_bind] at h
  obtain ⟨fEncrypted, next, -, h⟩ := run_bind_eq_ok_iff.mp h
  split_ifs at h
  · cases h
  · cases h
  · rw [run_modify_bind] at h
    obtain ⟨_, _, -, h⟩ := run_bind_eq_ok_iff.mp h
    cases h

/-- A call that returns false leaves the master keys, the keys and the database object alone
unless the transaction is not begun. -/
theorem encryptWallet_clean_iff (ctx : KeyStoreContext) (io : EncryptIo)
    (strWalletPassphrase : Bytes) (wallet : CryptoWallet) :
    (∀ wallet', (encryptWallet ctx io strWalletPassphrase).run wallet = (.ok false, wallet') →
      wallet'.mapMasterKeys = wallet.mapMasterKeys ∧ wallet'.store = wallet.store ∧
        wallet'.pwalletdbEncryption = wallet.pwalletdbEncryption) ↔
      ¬ (wallet.store.fUseCrypto = false ∧
        (io.kMasterKey ctx strWalletPassphrase).isSome = true ∧ wallet.fFileBacked = true ∧
          io.fOpen = true ∧ io.fTxnBegin = false) := by
  rw [encryptWallet, run_get_bind]
  constructor
  · rintro h ⟨hplain, hkey, hfile, hopen, hbegin⟩
    obtain ⟨kMasterKey, hkey⟩ := Option.isSome_iff_exists.mp hkey
    have hleft := (h (openDB (addMasterKey kMasterKey wallet)) (by
      rw [hplain, hkey, hfile, hopen, hbegin]
      rfl)).2.2
    cases hhandle : wallet.pwalletdbEncryption with
    | none =>
      rw [openDB, addMasterKey, hhandle] at hleft
      cases hleft
    | some n =>
      rw [openDB, addMasterKey, hhandle] at hleft
      exact absurd (Option.some.inj hleft) (Nat.succ_ne_self n)
  · intro hbegin wallet' h
    by_cases hcrypto : wallet.store.fUseCrypto = true
    · rw [if_pos hcrypto] at h
      cases h
      exact ⟨rfl, rfl, rfl⟩
    · rw [if_neg hcrypto] at h
      cases hkey : io.kMasterKey ctx strWalletPassphrase with
      | none =>
        rw [hkey] at h
        cases h
        exact ⟨rfl, rfl, rfl⟩
      | some kMasterKey =>
        simp only [hkey, run_modify_bind] at h
        split_ifs at h with hfile hopen hfails
        · cases h
        · refine absurd ⟨eq_false_of_ne_true hcrypto, by rw [hkey]; rfl, hfile, ?_, ?_⟩ hbegin
          · simpa using hopen
          · simpa using hfails
        · exact absurd h encryptAndCommit_ne_false
        · exact absurd h encryptAndCommit_ne_false

end CryptoWallet

namespace Sample

/-- For the passphrase `primecoin`, by 25000 rounds of SHA-512. -/
def passphraseKey : Bytes × Bytes :=
  (beBytes 32 0x09c37eafd574b1856afefb97e5f993709cb4d9f2cced06639cf4d43c2be57882,
    beBytes 16 0x4193e3fbb46a7c7e3a252432ff2d9064)

def cryptedMasterKey : Bytes := beBytes 48
  0x0ab79659850445a91a65282ed00208201d0b1a0ec8bb6e10f1cc48a85c44c82c17454f1ace57a2366e9cefdfdcaa6109

def masterStore : KeyStoreContext where
  lib := secp256k1
  hash _ := publicKeyHash
  hash160 := hash160
  encrypt chKey chIV vchPlaintext :=
    if (chKey, chIV) = passphraseKey ∧ vchPlaintext = masterKey then some cryptedMasterKey
    else none
  decrypt chKey chIV vchCiphertext :=
    if (chKey, chIV) = passphraseKey ∧ vchCiphertext = cryptedMasterKey then some masterKey
    else none
  decrypt_encrypt := by
    intro chKey chIV vchPlaintext vchCiphertext h
    split_ifs at h with hmessage
    cases h
    rw [if_pos ⟨hmessage.1, rfl⟩, hmessage.2]

def noTransaction : EncryptIo where
  vMasterKey := masterKey
  vchSalt := [0, 1, 2, 3, 4, 5, 6, 7]
  nDeriveIterations := 25000
  bytesToKey _ _ _ := some passphraseKey
  fOpen := true
  fTxnBegin := false
  fWritten := true
  fTxnCommit := true
  newKeyPool := pure ()

def plainWallet : CryptoWallet := ⟨.new, fun _ => none, 0, true, none⟩

end Sample

open Sample

/-- The master key that was never written stays in the wallet. -/
theorem CryptoWallet.encryptWallet_leaves_masterKey :
    let result := (encryptWallet masterStore noTransaction
      [0x70, 0x72, 0x69, 0x6d, 0x65, 0x63, 0x6f, 0x69, 0x6e]).run plainWallet
    result.1.toOption = some false ∧ plainWallet.mapMasterKeys 1 = none ∧
      result.2.mapMasterKeys 1 = some ⟨cryptedMasterKey, [0, 1, 2, 3, 4, 5, 6, 7], 0, 25000, []⟩ ∧
      plainWallet.pwalletdbEncryption = none ∧ result.2.pwalletdbEncryption = some 0 := by
  decide

end Primecoin

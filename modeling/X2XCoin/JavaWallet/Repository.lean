import X2XCoin.JavaWallet.KeyImport

/-!
# The wallet on the phone

`WalletStore.java` and the operations of `WalletRepository.java` that change the accounts.  A
repository is the store in memory, the password of the session and the encrypted wallet in the
preferences, which is opened by its password and by no other.  What a call takes from outside
(identifiers, the time, a new key, exceptions) is an argument.
-/

open ByteCodec

namespace X2XCoin

namespace JavaWallet

/-! ## The store -/

structure WalletStore where
  accounts : List WalletAccount
  activeAccountId : Option String
  deriving DecidableEq

namespace WalletStore

def new : WalletStore := ⟨[], none⟩

def activeAccount (store : WalletStore) : Option WalletAccount :=
  store.accounts.find? fun a => some a.id = store.activeAccountId

def addAccount (store : WalletStore) (account : WalletAccount) : WalletStore :=
  let added := { store with accounts := store.accounts ++ [account] }
  if added.activeAccountId = none ∨ added.activeAccount = none then
    { added with activeAccountId := some account.id }
  else added

def setActiveAccount (store : WalletStore) (accountId : String) : Except String WalletStore :=
  if store.accounts.all fun a => a.id ≠ accountId then .error "unknown account"
  else .ok { store with activeAccountId := some accountId }

/-- The loop of `renameAccount`. -/
def renameFirst (accountId label : String) : List WalletAccount → Option (List WalletAccount)
  | [] => none
  | a :: accounts =>
    if a.id = accountId then some ({ a with label := label } :: accounts)
    else (renameFirst accountId label accounts).map (a :: ·)

def renameAccount (store : WalletStore) (accountId label : String) : Except String WalletStore :=
  match renameFirst accountId label store.accounts with
  | none => .error "unknown account"
  | some accounts => .ok { store with accounts := accounts }

end WalletStore

/-! ## The encrypted wallet -/

structure AccountRecord where
  id : Option String
  label : Option String
  address : Option String
  privateKey : ℕ
  wif : Option String
  createdAt : Int64
  deriving DecidableEq

structure WalletPayload where
  activeAccountId : Option String
  accounts : List AccountRecord
  deriving DecidableEq

structure EncryptedWallet where
  password : String
  payload : WalletPayload
  deriving DecidableEq

def WalletAccount.record (account : WalletAccount) : AccountRecord where
  id := some account.id
  label := some account.label
  address := some account.address
  privateKey := account.privateKey
  wif := some account.wif
  createdAt := account.createdAt

def WalletStore.toPayload (store : WalletStore) : WalletPayload :=
  ⟨store.activeAccountId, store.accounts.map WalletAccount.record⟩

/-- `exportEncrypted`, when it does not throw. -/
def WalletStore.exportEncrypted (store : WalletStore) (password : String) : EncryptedWallet :=
  ⟨password, store.toPayload⟩

/-- `Character.isWhitespace`. -/
def isWhitespace (c : Char) : Bool :=
  let n := c.toNat
  9 ≤ n && n ≤ 13 || 28 ≤ n && n ≤ 32 || n = 0x1680 || 0x2000 ≤ n && n ≤ 0x2006 ||
    0x2008 ≤ n && n ≤ 0x200a || n = 0x2028 || n = 0x2029 || n = 0x205f || n = 0x3000

def isBlank (s : String) : Bool := s.toList.all isWhitespace

/-- A member of a record, or another value if it is missing or blank. -/
def orElseBlank (member : Option String) (other : String) : String :=
  match member with
  | none => other
  | some s => if isBlank s then other else s

/-- What a call takes from outside. -/
structure Call where
  uuid : ℕ → String
  now : Int64
  key : ℕ
  hashThrows : Option String
  exportThrows : Option String
  uuid_not_blank : ∀ i, isBlank (uuid i) = false
  now_pos : 0 < now
  key_pos : 0 < key
  key_lt : key < secp256k1Order

section

variable (curve : Curve) (hash256 : Bytes → Uint256) (hash160 : Bytes → Uint160)

def reconstructAccount (uuid : String) (now : Int64) (record : AccountRecord) :
    Except String WalletAccount := do
  let account ← WalletAccount.fromPrivateKey curve hash256 hash160 uuid now record.label
    record.privateKey
  pure
    { id := orElseBlank record.id account.id
      label := record.label.getD account.label
      address := orElseBlank record.address account.address
      privateKey := account.privateKey
      wif := orElseBlank record.wif account.wif
      createdAt := if record.createdAt > 0 then record.createdAt else account.createdAt }

/-- The loop of `importEncrypted` over the records, the next of which takes the identifier `i`. -/
def reconstructAll (call : Call) : ℕ → List AccountRecord → Except String (List WalletAccount)
  | _, [] => .ok []
  | i, record :: records => do
    let account ← reconstructAccount curve hash256 hash160 (call.uuid i) call.now record
    let accounts ← reconstructAll call (i + 1) records
    pure (account :: accounts)

def importEncrypted (call : Call) (password : String) (encrypted : EncryptedWallet) :
    Except String WalletStore :=
  if password ≠ encrypted.password then .error "AEADBadTagException"
  else do
    let accounts ← reconstructAll curve hash256 hash160 call 0 encrypted.payload.accounts
    pure ⟨accounts, encrypted.payload.activeAccountId⟩

end

/-! ## The repository -/

structure Repository where
  walletStore : WalletStore
  sessionPassword : Option String
  wallet : Option EncryptedWallet
  deriving DecidableEq

inductive Operation where
  | importWif (password : String) (label : Option String) (wif : String)
  | importWifToSession (label : Option String) (wif : String)
  | addAccount (label : Option String)
  | renameAccount (accountId label : String)
  | setActiveAccount (accountId : String)
  | lock
  | unlock (password : String)

namespace Repository

def persist (call : Call) (password : String) (store : WalletStore) (repo : Repository) :
    Except String Unit × Repository :=
  match call.hashThrows, call.exportThrows with
  | some e, _ => (.error e, repo)
  | none, some e => (.error e, repo)
  | none, none => (.ok (), ⟨store, some password, some (store.exportEncrypted password)⟩)

def saveWalletSnapshotOrThrow (call : Call) (repo : Repository) : Except String Unit × Repository :=
  match repo.sessionPassword with
  | none => (.error "wallet locked", repo)
  | some password =>
    match call.exportThrows with
    | some e => (.error e, repo)
    | none => (.ok (), { repo with wallet := some (repo.walletStore.exportEncrypted password) })

/-- `saveWalletSnapshot`, which ignores the exception. -/
def saveWalletSnapshot (call : Call) (repo : Repository) : Repository :=
  (saveWalletSnapshotOrThrow call repo).2

variable (curve : Curve) (hash256 : Bytes → Uint256) (hash160 : Bytes → Uint160)

/-- `importWif`: the store in memory is changed in place before it is saved, unless it is empty. -/
def importWif (call : Call) (password : String) (label : Option String) (wif : String)
    (repo : Repository) : Except String Unit × Repository :=
  match WalletAccount.fromWif curve hash256 hash160 (call.uuid 0) call.now label wif with
  | .error e => (.error e, repo)
  | .ok account =>
    if repo.walletStore.accounts.isEmpty then
      persist call password (WalletStore.new.addAccount account) repo
    else
      let store := repo.walletStore.addAccount account
      persist call password store { repo with walletStore := store }

/-- `importWifToSession`; it returns the account that it adds. -/
def importWifToSession (call : Call) (label : Option String) (wif : String) (repo : Repository) :
    Except String WalletAccount × Repository :=
  match repo.sessionPassword with
  | none => (.error "wallet locked", repo)
  | some _ =>
    match WalletAccount.fromWif curve hash256 hash160 (call.uuid 0) call.now label
        (String.ofList (AddressCodec.trimChars wif.toList)) with
    | .error e => (.error e, repo)
    | .ok account =>
      let added := repo.walletStore.addAccount account
      match added.setActiveAccount account.id with
      | .error e => (.error e, { repo with walletStore := added })
      | .ok store =>
        let saved := saveWalletSnapshotOrThrow call { repo with walletStore := store }
        (saved.1.map fun _ => account, saved.2)

def addAccount (call : Call) (label : Option String) (repo : Repository) :
    Except String Unit × Repository :=
  match WalletAccount.fromPrivateKey curve hash256 hash160 (call.uuid 0) call.now label call.key with
  | .error e => (.error e, repo)
  | .ok account =>
    (.ok (), saveWalletSnapshot call { repo with walletStore := repo.walletStore.addAccount account })

def renameAccount (call : Call) (accountId label : String) (repo : Repository) :
    Except String Unit × Repository :=
  match repo.walletStore.renameAccount accountId label with
  | .error e => (.error e, repo)
  | .ok store => (.ok (), saveWalletSnapshot call { repo with walletStore := store })

def setActiveAccount (call : Call) (accountId : String) (repo : Repository) :
    Except String Unit × Repository :=
  match repo.walletStore.setActiveAccount accountId with
  | .error e => (.error e, repo)
  | .ok store => (.ok (), saveWalletSnapshot call { repo with walletStore := store })

def lock (repo : Repository) : Repository :=
  { repo with sessionPassword := none, walletStore := WalletStore.new }

def unlock (call : Call) (password : String) (repo : Repository) : Except String Unit × Repository :=
  match repo.wallet with
  | none => (.error "wallet not initialized", repo)
  | some encrypted =>
    match importEncrypted curve hash256 hash160 call password encrypted with
    | .error e => (.error e, repo)
    | .ok store => (.ok (), { repo with walletStore := store, sessionPassword := some password })

def perform (repo : Repository) : Operation × Call → Except String Unit × Repository
  | (.importWif password label wif, call) =>
    repo.importWif curve hash256 hash160 call password label wif
  | (.importWifToSession label wif, call) =>
    let result := repo.importWifToSession curve hash256 hash160 call label wif
    (result.1.map fun _ => (), result.2)
  | (.addAccount label, call) => repo.addAccount curve hash256 hash160 call label
  | (.renameAccount accountId label, call) => repo.renameAccount call accountId label
  | (.setActiveAccount accountId, call) => repo.setActiveAccount call accountId
  | (.lock, _) => (.ok (), repo.lock)
  | (.unlock password, call) => repo.unlock curve hash256 hash160 call password

/-- The repository after a call. -/
def step (repo : Repository) (op : Operation × Call) : Repository :=
  (repo.perform curve hash256 hash160 op).2

end Repository

/-! ## Safe calls -/

/-- An account as the wallet makes it: nothing that a record holds is blank. -/
structure WalletAccount.Complete (curve : Curve) (account : WalletAccount) : Prop where
  id : isBlank account.id = false
  address : isBlank account.address = false
  wif : isBlank account.wif = false
  createdAt : 0 < account.createdAt
  key : (curve.mul account.privateKey).isSome

namespace Repository

/-- The records of the encrypted wallet. -/
def records (repo : Repository) : List AccountRecord :=
  (repo.wallet.map fun encrypted => encrypted.payload.accounts).getD []

/-- A key can be recovered from the encrypted wallet. -/
def Recoverable (repo : Repository) (key : ℕ) : Prop := ∃ r ∈ repo.records, r.privateKey = key

/-- The accounts of a store are in the encrypted wallet. -/
def Holds (repo : Repository) (store : WalletStore) : Prop :=
  ∀ a ∈ store.accounts, a.record ∈ repo.records

/-- A snapshot can be saved. -/
def CanSave (repo : Repository) (call : Call) : Prop :=
  repo.sessionPassword.isSome ∧ call.exportThrows = none

section

variable (curve : Curve) (hash256 : Bytes → Uint256) (hash160 : Bytes → Uint160)

/-- No key is lost, and when the call returns every listed account is in the encrypted wallet. -/
def Safe (repo : Repository) (op : Operation × Call) : Prop :=
  let result := repo.perform curve hash256 hash160 op
  (∀ key, repo.Recoverable key → result.2.Recoverable key) ∧
    (result.1 = .ok () → result.2.Holds result.2.walletStore)

/-- The calls that are safe: an import that overwrites no key that is not in memory, and changes that
are saved or have nothing to save. -/
def Keeps (repo : Repository) : Operation × Call → Prop
  | (.importWif _ label wif, call) => ∀ account,
    WalletAccount.fromWif curve hash256 hash160 (call.uuid 0) call.now label wif = .ok account →
    call.hashThrows = none → call.exportThrows = none → ∀ key, repo.Recoverable key →
      key = account.privateKey ∨ ∃ a ∈ repo.walletStore.accounts, a.privateKey = key
  | (.addAccount _, call) => repo.CanSave call
  | (.renameAccount accountId label, call) => ∀ store,
    repo.walletStore.renameAccount accountId label = .ok store → repo.CanSave call ∨ repo.Holds store
  | (.setActiveAccount accountId, call) => ∀ store,
    repo.walletStore.setActiveAccount accountId = .ok store → repo.CanSave call ∨ repo.Holds store
  | (.importWifToSession _ _, _) => True
  | (.lock, _) => True
  | (.unlock _, _) => True

/-- The identifier that a call takes is not one of a saved account. -/
def Fresh (repo : Repository) (op : Operation × Call) : Prop :=
  ∀ r ∈ repo.records, r.id ≠ some (op.2.uuid 0)

/-- What holds between calls: an open wallet has all saved keys in memory. -/
structure Sound (repo : Repository) : Prop where
  complete : ∀ a ∈ repo.walletStore.accounts, a.Complete curve
  saved : ∃ accounts : List WalletAccount, repo.records = accounts.map WalletAccount.record ∧
    ∀ a ∈ accounts, a.Complete curve
  opened : repo.sessionPassword.isSome → ∀ key, repo.Recoverable key →
    ∃ a ∈ repo.walletStore.accounts, a.privateKey = key

end

end Repository

/-! ## Accounts and records -/

theorem isBlank_base58Text {vch : Bytes} (h : vch ≠ []) :
    isBlank (String.ofList (base58Text vch)) = false := by
  obtain ⟨c, rest, hcons⟩ := List.exists_cons_of_ne_nil (base58Text_ne_nil h)
  have hmem : c ∈ pszBase58 := mem_pszBase58_of_mem_base58Text (by rw [hcons]; exact List.mem_cons_self)
  have hall : pszBase58.all (fun c => !isWhitespace c) = true := by decide +kernel
  have hc := List.all_eq_true.mp hall c hmem
  rw [Bool.not_eq_true'] at hc
  rw [isBlank, String.toList_ofList, hcons, List.all_cons, hc, Bool.false_and]

section

variable {curve : Curve} {hash256 : Bytes → Uint256} {hash160 : Bytes → Uint160}

variable {account : WalletAccount}

theorem fromPrivateKey_spec {uuid : String} {now : Int64} {label : Option String} {key : ℕ}
    (h : WalletAccount.fromPrivateKey curve hash256 hash160 uuid now label key = .ok account)
    (huuid : isBlank uuid = false) (hnow : 0 < now) :
    account.Complete curve ∧ account.id = uuid ∧ account.privateKey = key := by
  rw [WalletAccount.fromPrivateKey, compressedPublicKey] at h
  cases hmul : curve.mul key with
  | none =>
    rw [hmul] at h
    cases h
  | some point =>
    rw [hmul] at h
    obtain rfl := Except.ok.inj h
    refine ⟨⟨huuid, ?_, ?_, hnow, by rw [hmul]; rfl⟩, rfl, rfl⟩
    · rw [AddressCodec.fromPublicKey, AddressCodec.addressOf, Base58.encodeCheck, Base58.encode_eq]
      exact isBlank_base58Text (List.cons_ne_nil _ _)
    · rw [WifCodec.encode, Base58.encodeCheck, Base58.encode_eq]
      exact isBlank_base58Text (List.cons_ne_nil _ _)

variable (hash256 hash160) in
theorem fromPrivateKey_isOk {key : ℕ} (h : (curve.mul key).isSome) (uuid : String) (now : Int64)
    (label : Option String) :
    ∃ account, WalletAccount.fromPrivateKey curve hash256 hash160 uuid now label key = .ok account := by
  obtain ⟨point, hpoint⟩ := Option.isSome_iff_exists.mp h
  rw [WalletAccount.fromPrivateKey, compressedPublicKey, hpoint]
  exact ⟨_, rfl⟩

theorem fromWif_spec {uuid : String} {now : Int64} {label : Option String} {wif : String}
    (h : WalletAccount.fromWif curve hash256 hash160 uuid now label wif = .ok account)
    (huuid : isBlank uuid = false) (hnow : 0 < now) :
    account.Complete curve ∧ account.id = uuid := by
  rw [WalletAccount.fromWif] at h
  cases hdecode : WifCodec.decode hash256 wif with
  | error _ =>
    rw [hdecode] at h
    cases h
  | ok key =>
    rw [hdecode] at h
    obtain ⟨hcomplete, hid, -⟩ := fromPrivateKey_spec h huuid hnow
    exact ⟨hcomplete, hid⟩

theorem reconstructAccount_record (h : account.Complete curve) (uuid : String) (now : Int64) :
    reconstructAccount curve hash256 hash160 uuid now account.record = .ok account := by
  have hblank : ∀ {s other : String}, isBlank s = false → orElseBlank (some s) other = s := fun hs => by
    rw [orElseBlank, hs]
    rfl
  obtain ⟨made, hmade⟩ := fromPrivateKey_isOk hash256 hash160 h.key uuid now
    account.record.label
  have hkey : made.privateKey = account.privateKey := by
    obtain ⟨point, hpoint⟩ := Option.isSome_iff_exists.mp h.key
    rw [WalletAccount.fromPrivateKey, compressedPublicKey, hpoint] at hmade
    obtain rfl := Except.ok.inj hmade
    rfl
  rw [reconstructAccount, show account.record.privateKey = account.privateKey from rfl, hmade]
  simp only [bind, Except.bind, pure, Except.pure, WalletAccount.record, hblank h.id, hblank h.address,
    hblank h.wif, hkey, Option.getD_some, gt_iff_lt, if_pos h.createdAt]

theorem reconstructAll_records {accounts : List WalletAccount} (h : ∀ a ∈ accounts, a.Complete curve)
    (call : Call) (i : ℕ) :
    reconstructAll curve hash256 hash160 call i (accounts.map WalletAccount.record) = .ok accounts := by
  induction accounts generalizing i with
  | nil => rfl
  | cons a accounts ih =>
    rw [List.forall_mem_cons] at h
    rw [List.map_cons, reconstructAll, reconstructAccount_record h.1, ih h.2]
    rfl

end

/-! ## What the store operations do to the accounts -/

namespace WalletStore

variable {store store' : WalletStore}

theorem accounts_addAccount (account : WalletAccount) :
    (store.addAccount account).accounts = store.accounts ++ [account] := by
  rw [addAccount]
  split_ifs <;> rfl

theorem accounts_setActiveAccount {accountId : String}
    (h : store.setActiveAccount accountId = .ok store') : store'.accounts = store.accounts := by
  rw [setActiveAccount] at h
  split_ifs at h
  obtain rfl := Except.ok.inj h
  rfl

theorem setActiveAccount_isOk {account : WalletAccount} (h : account ∈ store.accounts) :
    ∃ store', store.setActiveAccount account.id = .ok store' := by
  have hany : ¬ (store.accounts.all fun a => a.id ≠ account.id) = true := fun hall => by
    simpa using List.all_eq_true.mp hall account h
  exact ⟨_, if_neg hany⟩

theorem renameFirst_spec {accountId label : String} {accounts renamed : List WalletAccount}
    (h : renameFirst accountId label accounts = some renamed) :
    renamed.map (fun a => { a with label := "" }) = accounts.map fun a => { a with label := "" } := by
  induction accounts generalizing renamed with
  | nil => cases h
  | cons a accounts ih =>
    rw [renameFirst] at h
    split_ifs at h
    · obtain rfl := Option.some.inj h
      rfl
    · obtain ⟨rest, hrest, rfl⟩ := Option.map_eq_some_iff.mp h
      rw [List.map_cons, List.map_cons, ih hrest]

/-- A renamed store has the accounts with their keys, and they are as complete as before. -/
theorem renameAccount_spec (curve : Curve) {accountId label : String}
    (h : store.renameAccount accountId label = .ok store') :
    (∀ a ∈ store.accounts, ∃ b ∈ store'.accounts, b.privateKey = a.privateKey) ∧
      ((∀ a ∈ store.accounts, a.Complete curve) → ∀ b ∈ store'.accounts, b.Complete curve) := by
  rw [renameAccount] at h
  split at h
  · cases h
  · next accounts haccounts =>
    obtain rfl := Except.ok.inj h
    have hmap := renameFirst_spec haccounts
    refine ⟨fun a ha => ?_, fun hcomplete b hb => ?_⟩
    · have hmem := List.mem_map_of_mem (f := fun a : WalletAccount => { a with label := "" }) ha
      rw [← hmap] at hmem
      obtain ⟨b, hb, heq⟩ := List.mem_map.mp hmem
      exact ⟨b, hb, (WalletAccount.mk.inj heq).2.2.2.1⟩
    · have hmem := List.mem_map_of_mem (f := fun a : WalletAccount => { a with label := "" }) hb
      rw [hmap] at hmem
      obtain ⟨a, ha, heq⟩ := List.mem_map.mp hmem
      obtain ⟨hid, haddress, hwif, hcreated, hkey⟩ := hcomplete a ha
      simp only [WalletAccount.mk.injEq, true_and] at heq
      obtain ⟨hid', haddress', hkey', hwif', hcreated'⟩ := heq
      exact ⟨hid' ▸ hid, haddress' ▸ haddress, hwif' ▸ hwif, hcreated' ▸ hcreated, hkey' ▸ hkey⟩

end WalletStore

namespace Repository

variable {repo : Repository} {store : WalletStore} {call : Call}

/-! ## Saving -/

theorem saveWalletSnapshotOrThrow_cases (call : Call) (repo : Repository) :
    (repo.CanSave call ∧ ∃ password, repo.sessionPassword = some password ∧
      saveWalletSnapshotOrThrow call repo =
        (.ok (), { repo with wallet := some (repo.walletStore.exportEncrypted password) })) ∨
    ¬ repo.CanSave call ∧ ∃ e, saveWalletSnapshotOrThrow call repo = (.error e, repo) := by
  rw [saveWalletSnapshotOrThrow, CanSave]
  cases repo.sessionPassword with
  | none => exact .inr ⟨by simp, _, rfl⟩
  | some password =>
    cases call.exportThrows with
    | some e => exact .inr ⟨by simp, _, rfl⟩
    | none => exact .inl ⟨⟨rfl, rfl⟩, password, rfl, rfl⟩

section

variable {session : Option String} {password : String} {key : ℕ}

theorem records_saved :
    records ⟨store, session, some (store.exportEncrypted password)⟩ =
      store.accounts.map WalletAccount.record := rfl

theorem holds_saved : Holds ⟨store, session, some (store.exportEncrypted password)⟩ store :=
  fun _ ha => List.mem_map_of_mem ha

theorem recoverable_saved : Recoverable ⟨store, session, some (store.exportEncrypted password)⟩ key ↔
    ∃ a ∈ store.accounts, a.privateKey = key := by
  simp only [Recoverable, records_saved, List.mem_map, exists_exists_and_eq_and]
  rfl

end

/-- All saved keys are in the store, if the wallet is open. -/
def Covers (repo : Repository) (store : WalletStore) : Prop :=
  repo.sessionPassword.isSome → ∀ key, repo.Recoverable key → ∃ a ∈ store.accounts, a.privateKey = key

/-- A change to the store that is saved if possible is safe exactly if it is saved or had been. -/
theorem snapshot_safe_iff (call : Call) (hcovers : repo.Covers store) :
    let saved := saveWalletSnapshot call { repo with walletStore := store }
    ((∀ key, repo.Recoverable key → saved.Recoverable key) ∧ saved.Holds saved.walletStore) ↔
      repo.CanSave call ∨ repo.Holds store := by
  intro saved
  rcases saveWalletSnapshotOrThrow_cases call { repo with walletStore := store } with
    ⟨hcan, password, -, heq⟩ | ⟨hcan, e, heq⟩
  · have hsaved : saved = ⟨store, repo.sessionPassword, some (store.exportEncrypted password)⟩ :=
      congrArg Prod.snd heq
    rw [hsaved]
    refine iff_of_true ⟨fun key hkey => ?_, holds_saved⟩ (.inl hcan)
    exact recoverable_saved.mpr (hcovers hcan.1 key hkey)
  · have hsaved : saved = { repo with walletStore := store } := congrArg Prod.snd heq
    rw [hsaved]
    exact ⟨fun h => .inr h.2, fun h => ⟨fun _ hkey => hkey, h.resolve_left hcan⟩⟩

section

variable {curve : Curve}

theorem Sound.of_store (h : repo.Sound curve) (hcomplete : ∀ a ∈ store.accounts, a.Complete curve)
    (hcovers : repo.Covers store) : Sound curve { repo with walletStore := store } :=
  ⟨hcomplete, h.saved, hcovers⟩

theorem sound_saved (hcomplete : ∀ a ∈ store.accounts, a.Complete curve) (session : Option String)
    (password : String) : Sound curve ⟨store, session, some (store.exportEncrypted password)⟩ :=
  ⟨hcomplete, ⟨store.accounts, records_saved, hcomplete⟩, fun _ _ => recoverable_saved.mp⟩

theorem Sound.snapshot (h : repo.Sound curve) (hcomplete : ∀ a ∈ store.accounts, a.Complete curve)
    (hcovers : repo.Covers store) :
    Sound curve (saveWalletSnapshotOrThrow call { repo with walletStore := store }).2 := by
  rcases saveWalletSnapshotOrThrow_cases call { repo with walletStore := store } with
    ⟨-, password, -, heq⟩ | ⟨-, e, heq⟩
  · rw [heq]
    exact sound_saved hcomplete _ _
  · rw [heq]
    exact h.of_store hcomplete hcovers

theorem Sound.addAccount (h : repo.Sound curve) {account : WalletAccount}
    (haccount : account.Complete curve) :
    (∀ a ∈ (repo.walletStore.addAccount account).accounts, a.Complete curve) ∧
      repo.Covers (repo.walletStore.addAccount account) := by
  rw [Covers, WalletStore.accounts_addAccount]
  refine ⟨fun a ha => ?_, fun hopen key hkey => ?_⟩
  · rcases List.mem_append.mp ha with ha | ha
    · exact h.complete a ha
    · rw [List.mem_singleton.mp ha]
      exact haccount
  · obtain ⟨a, ha, heq⟩ := h.opened hopen key hkey
    exact ⟨a, List.mem_append_left _ ha, heq⟩

variable {hash256 : Bytes → Uint256} {hash160 : Bytes → Uint160}

variable {label : Option String} {op : Operation × Call} {wif : String}

/-- A call that throws and leaves the encrypted wallet alone is safe. -/
theorem safe_of_error {e : String} (store : WalletStore)
    (h : repo.perform curve hash256 hash160 op = (.error e, { repo with walletStore := store })) :
    repo.Safe curve hash256 hash160 op := by
  rw [Safe, h]
  exact ⟨fun _ hkey => hkey, fun hok => nomatch hok⟩

/-! ## The calls one by one -/

theorem persist_cases (call : Call) (password : String) (store : WalletStore) (repo : Repository) :
    (call.hashThrows = none ∧ call.exportThrows = none ∧ persist call password store repo =
      (.ok (), ⟨store, some password, some (store.exportEncrypted password)⟩)) ∨
    ¬ (call.hashThrows = none ∧ call.exportThrows = none) ∧
      ∃ e, persist call password store repo = (.error e, repo) := by
  rw [persist]
  cases call.hashThrows with
  | some e => exact .inr ⟨by simp, e, rfl⟩
  | none =>
    cases call.exportThrows with
    | some e => exact .inr ⟨by simp, e, rfl⟩
    | none => exact .inl ⟨rfl, rfl, rfl⟩

theorem importWif_cases (repo : Repository) (password : String) {account : WalletAccount}
    (h : WalletAccount.fromWif curve hash256 hash160 (call.uuid 0) call.now label wif = .ok account) :
    (call.hashThrows = none ∧ call.exportThrows = none ∧ ∃ store : WalletStore,
      store.accounts = repo.walletStore.accounts ++ [account] ∧
      repo.importWif curve hash256 hash160 call password label wif =
        (.ok (), ⟨store, some password, some (store.exportEncrypted password)⟩)) ∨
    ¬ (call.hashThrows = none ∧ call.exportThrows = none) ∧ ∃ (e : String) (store : WalletStore),
      (store = repo.walletStore ∨ store = repo.walletStore.addAccount account) ∧
      repo.importWif curve hash256 hash160 call password label wif =
        (.error e, { repo with walletStore := store }) := by
  rw [importWif, h]
  dsimp only
  split_ifs with hempty
  · have haccounts : (WalletStore.new.addAccount account).accounts =
        repo.walletStore.accounts ++ [account] := by
      rw [WalletStore.accounts_addAccount, List.isEmpty_iff.mp hempty]
      rfl
    rcases persist_cases call password (WalletStore.new.addAccount account) repo with
      ⟨hhash, hexport, heq⟩ | ⟨hthrows, e, heq⟩
    · exact .inl ⟨hhash, hexport, _, haccounts, heq⟩
    · exact .inr ⟨hthrows, e, _, .inl rfl, heq⟩
  · rcases persist_cases call password (repo.walletStore.addAccount account)
      { repo with walletStore := repo.walletStore.addAccount account } with
      ⟨hhash, hexport, heq⟩ | ⟨hthrows, e, heq⟩
    · exact .inl ⟨hhash, hexport, _, WalletStore.accounts_addAccount account, heq⟩
    · exact .inr ⟨hthrows, e, _, .inr rfl, heq⟩

theorem importWif_safe_iff {password : String} :
    repo.Safe curve hash256 hash160 (.importWif password label wif, call) ↔
      repo.Keeps curve hash256 hash160 (.importWif password label wif, call) := by
  rw [Keeps]
  cases hwif : WalletAccount.fromWif curve hash256 hash160 (call.uuid 0) call.now label wif with
  | error e =>
    refine iff_of_true (safe_of_error (e := e) repo.walletStore ?_) fun _ h => nomatch h
    rw [perform, importWif, hwif]
  | ok account =>
    rcases importWif_cases repo password hwif with
      ⟨hhash, hexport, store, haccounts, heq⟩ | ⟨hthrows, e, store, -, heq⟩
    · have hkeys : ∀ key, (∃ a ∈ store.accounts, a.privateKey = key) ↔
          key = account.privateKey ∨ ∃ a ∈ repo.walletStore.accounts, a.privateKey = key := by
        intro key
        rw [haccounts]
        simp only [List.mem_append, List.mem_singleton, or_and_right, exists_or, exists_eq_left]
        rw [or_comm, eq_comm]
      rw [Safe, perform, heq]
      simp only [recoverable_saved, hkeys, holds_saved, implies_true, and_true, Except.ok.injEq,
        forall_eq', hhash, hexport, forall_const]
    · refine iff_of_true (safe_of_error store heq) fun _ _ hhash hexport => ?_
      exact absurd ⟨hhash, hexport⟩ hthrows

theorem addAccount_safe_iff (hsound : repo.Sound curve)
    (hfresh : repo.Fresh (.addAccount label, call)) :
    repo.Safe curve hash256 hash160 (.addAccount label, call) ↔ repo.CanSave call := by
  obtain ⟨account, haccount⟩ := fromPrivateKey_isOk hash256 hash160
    (curve.isSome call.key_pos call.key_lt) (call.uuid 0) call.now label
  obtain ⟨hcomplete, hid, -⟩ := fromPrivateKey_spec haccount (call.uuid_not_blank 0) call.now_pos
  have hnew : ¬ repo.Holds (repo.walletStore.addAccount account) := fun hholds => by
    have hmem := hholds account (by
      rw [WalletStore.accounts_addAccount]
      exact List.mem_append_right _ List.mem_cons_self)
    exact hfresh _ hmem (congrArg some hid)
  have hiff := snapshot_safe_iff call (hsound.addAccount hcomplete).2
  rw [or_iff_left hnew] at hiff
  refine Iff.trans ?_ hiff
  rw [Safe, perform, addAccount, haccount]
  simp only [forall_const]

/-- An operation that changes the store, saves it if it can, and returns. -/
theorem safe_iff_of_snapshot {change : Except String WalletStore}
    (hperform : repo.perform curve hash256 hash160 op = match change with
      | .error e => (.error e, repo)
      | .ok store => (.ok (), saveWalletSnapshot op.2 { repo with walletStore := store }))
    (hcovers : ∀ store, change = .ok store → repo.Covers store) :
    repo.Safe curve hash256 hash160 op ↔
      ∀ store, change = .ok store → repo.CanSave op.2 ∨ repo.Holds store := by
  cases change with
  | error e =>
    exact iff_of_true (safe_of_error repo.walletStore hperform) fun _ h => nomatch h
  | ok store =>
    rw [Safe, hperform]
    simp only [Except.ok.injEq, forall_eq', forall_const]
    exact snapshot_safe_iff op.2 (hcovers store rfl)

theorem Sound.covers_of_rename (hsound : repo.Sound curve) {accountId label : String}
    {store : WalletStore} (h : repo.walletStore.renameAccount accountId label = .ok store) :
    repo.Covers store := fun hopen key hkey => by
  obtain ⟨a, ha, rfl⟩ := hsound.opened hopen key hkey
  exact (WalletStore.renameAccount_spec curve h).1 a ha

theorem Sound.covers_of_setActive (hsound : repo.Sound curve) {accountId : String}
    {store : WalletStore} (h : repo.walletStore.setActiveAccount accountId = .ok store) :
    repo.Covers store := by
  rw [Covers, WalletStore.accounts_setActiveAccount h]
  exact hsound.opened

theorem importWifToSession_cases (hash256 : Bytes → Uint256) (hash160 : Bytes → Uint160) (call : Call)
    (label : Option String) (wif : String) (hsound : repo.Sound curve) :
    let result := repo.perform curve hash256 hash160 (.importWifToSession label wif, call)
    (∃ (e : String) (store : WalletStore), result = (.error e, { repo with walletStore := store }) ∧
      (∀ a ∈ store.accounts, a.Complete curve) ∧ repo.Covers store) ∨
    ∃ (password : String) (store : WalletStore), repo.sessionPassword = some password ∧
      result = (.ok (), ⟨store, some password, some (store.exportEncrypted password)⟩) ∧
      (∀ a ∈ store.accounts, a.Complete curve) ∧ repo.Covers store := by
  intro result
  obtain ⟨walletStore, session, wallet⟩ := repo
  cases session with
  | none => exact .inl ⟨_, walletStore, rfl, hsound.complete, hsound.opened⟩
  | some password =>
    simp only [result, perform, importWifToSession]
    cases hwif : WalletAccount.fromWif curve hash256 hash160 (call.uuid 0) call.now label
        (String.ofList (AddressCodec.trimChars wif.toList)) with
    | error e => exact .inl ⟨e, walletStore, rfl, hsound.complete, hsound.opened⟩
    | ok account =>
      have hcomplete := (fromWif_spec hwif (call.uuid_not_blank 0) call.now_pos).1
      obtain ⟨hall, hcovers⟩ := hsound.addAccount hcomplete
      have hmem : account ∈ (walletStore.addAccount account).accounts := by
        rw [WalletStore.accounts_addAccount]
        exact List.mem_append_right _ List.mem_cons_self
      obtain ⟨store, hstore⟩ := WalletStore.setActiveAccount_isOk hmem
      have haccounts := WalletStore.accounts_setActiveAccount hstore
      rw [Covers, ← haccounts] at hcovers
      rw [← haccounts] at hall
      simp only [hstore]
      rcases saveWalletSnapshotOrThrow_cases call ⟨store, some password, wallet⟩ with
        ⟨-, _, ⟨⟩, heq⟩ | ⟨-, e, heq⟩
      · rw [heq]
        exact .inr ⟨password, store, rfl, rfl, hall, hcovers⟩
      · rw [heq]
        exact .inl ⟨e, store, rfl, hall, hcovers⟩

theorem importWifToSession_safe (hsound : repo.Sound curve) :
    repo.Safe curve hash256 hash160 (.importWifToSession label wif, call) := by
  rcases importWifToSession_cases hash256 hash160 call label wif hsound with
    ⟨e, store, heq, -⟩ | ⟨password, store, hsession, heq, -, hcovers⟩
  · exact safe_of_error store heq
  · rw [Safe, heq]
    refine ⟨fun key hkey => recoverable_saved.mpr (hcovers ?_ key hkey), fun _ => holds_saved⟩
    rw [hsession]
    rfl

/-- What `unlock` does: a wallet that is opened has in memory what is saved. -/
theorem unlock_cases (hash256 : Bytes → Uint256) (hash160 : Bytes → Uint160) (call : Call)
    (password : String) (hsound : repo.Sound curve) :
    (∃ e, repo.unlock curve hash256 hash160 call password = (.error e, repo)) ∨
    ∃ store : WalletStore, repo.unlock curve hash256 hash160 call password =
        (.ok (), { repo with walletStore := store, sessionPassword := some password }) ∧
      store.accounts.map WalletAccount.record = repo.records ∧
      ∀ a ∈ store.accounts, a.Complete curve := by
  obtain ⟨accounts, hrecords, hcomplete⟩ := hsound.saved
  rw [unlock]
  cases hwallet : repo.wallet with
  | none => exact .inl ⟨_, rfl⟩
  | some encrypted =>
    have hpayload : encrypted.payload.accounts = accounts.map WalletAccount.record := by
      rw [← hrecords, records, hwallet]
      rfl
    simp only [importEncrypted]
    split_ifs with hpassword
    · exact .inl ⟨_, rfl⟩
    · rw [hpayload, reconstructAll_records hcomplete]
      exact .inr ⟨⟨accounts, encrypted.payload.activeAccountId⟩, by rw [← hwallet]; rfl, hrecords.symm,
        hcomplete⟩

theorem unlock_safe {password : String} (hsound : repo.Sound curve) :
    repo.Safe curve hash256 hash160 (.unlock password, call) := by
  rcases unlock_cases hash256 hash160 call password hsound with ⟨e, heq⟩ | ⟨store, heq, hrecords, -⟩
  · exact safe_of_error repo.walletStore heq
  · rw [Safe, perform, heq]
    refine ⟨fun _ hkey => hkey, fun _ a ha => ?_⟩
    change a.record ∈ repo.records
    rw [← hrecords]
    exact List.mem_map_of_mem ha

/-! ## Runs -/

theorem safe_iff_keeps (hsound : repo.Sound curve) (hfresh : repo.Fresh op) :
    repo.Safe curve hash256 hash160 op ↔ repo.Keeps curve hash256 hash160 op := by
  obtain ⟨op, call⟩ := op
  cases op with
  | importWif password label wif => exact importWif_safe_iff
  | importWifToSession label wif => exact iff_of_true (importWifToSession_safe hsound) trivial
  | addAccount label => exact addAccount_safe_iff hsound hfresh
  | renameAccount accountId label =>
    exact safe_iff_of_snapshot rfl fun store hstore => hsound.covers_of_rename hstore
  | setActiveAccount accountId =>
    exact safe_iff_of_snapshot rfl fun store hstore => hsound.covers_of_setActive hstore
  | lock =>
    refine iff_of_true ⟨fun _ hkey => hkey, fun _ a ha => ?_⟩ trivial
    exact absurd ha List.not_mem_nil
  | unlock password => exact iff_of_true (unlock_safe hsound) trivial

theorem Sound.step (hsound : repo.Sound curve) (op : Operation × Call) :
    (repo.step curve hash256 hash160 op).Sound curve := by
  obtain ⟨op, call⟩ := op
  cases op with
  | importWif password label wif =>
    rw [Repository.step, perform]
    cases hwif : WalletAccount.fromWif curve hash256 hash160 (call.uuid 0) call.now label wif with
    | error e =>
      rw [importWif, hwif]
      exact hsound
    | ok account =>
      have haccount := (fromWif_spec hwif (call.uuid_not_blank 0) call.now_pos).1
      obtain ⟨hcomplete, hcovers⟩ := hsound.addAccount haccount
      rcases importWif_cases repo password hwif with
        ⟨-, -, store, haccounts, heq⟩ | ⟨-, e, store, rfl | rfl, heq⟩
      · rw [heq]
        rw [WalletStore.accounts_addAccount, ← haccounts] at hcomplete
        exact sound_saved hcomplete _ _
      · rw [heq]
        exact hsound
      · rw [heq]
        exact hsound.of_store hcomplete hcovers
  | importWifToSession label wif =>
    rcases importWifToSession_cases hash256 hash160 call label wif hsound with
      ⟨e, store, heq, hcomplete, hcovers⟩ | ⟨password, store, -, heq, hcomplete, -⟩
    · rw [Repository.step, heq]
      exact hsound.of_store hcomplete hcovers
    · rw [Repository.step, heq]
      exact sound_saved hcomplete _ _
  | addAccount label =>
    obtain ⟨account, haccount⟩ := fromPrivateKey_isOk hash256 hash160
      (curve.isSome call.key_pos call.key_lt) (call.uuid 0) call.now label
    have hnew := (fromPrivateKey_spec haccount (call.uuid_not_blank 0) call.now_pos).1
    obtain ⟨hcomplete, hcovers⟩ := hsound.addAccount hnew
    rw [Repository.step, perform, Repository.addAccount, haccount]
    exact hsound.snapshot hcomplete hcovers
  | renameAccount accountId label =>
    rw [Repository.step, perform, renameAccount]
    cases hstore : repo.walletStore.renameAccount accountId label with
    | error e => exact hsound
    | ok store =>
      exact hsound.snapshot ((WalletStore.renameAccount_spec curve hstore).2 hsound.complete)
        (hsound.covers_of_rename hstore)
  | setActiveAccount accountId =>
    rw [Repository.step, perform, setActiveAccount]
    cases hstore : repo.walletStore.setActiveAccount accountId with
    | error e => exact hsound
    | ok store =>
      refine hsound.snapshot ?_ (hsound.covers_of_setActive hstore)
      rw [WalletStore.accounts_setActiveAccount hstore]
      exact hsound.complete
  | lock => exact ⟨fun _ ha => absurd ha List.not_mem_nil, hsound.saved, fun h => nomatch h⟩
  | unlock password =>
    rcases unlock_cases hash256 hash160 call password hsound with ⟨e, heq⟩ | ⟨store, heq, hrecords, hcomplete⟩
    · rw [Repository.step, perform, heq]
      exact hsound
    · rw [Repository.step, perform, heq]
      refine ⟨hcomplete, hsound.saved, fun _ key ⟨r, hr, hkey⟩ => ?_⟩
      change r ∈ repo.records at hr
      rw [← hrecords] at hr
      obtain ⟨a, ha, rfl⟩ := List.mem_map.mp hr
      exact ⟨a, ha, hkey⟩

/-- A repository that has just been created on a saved wallet. -/
def start (encrypted : EncryptedWallet) : Repository := ⟨WalletStore.new, none, some encrypted⟩

theorem sound_start {store : WalletStore} (hstore : ∀ a ∈ store.accounts, a.Complete curve)
    (password : String) : (start (store.exportEncrypted password)).Sound curve :=
  ⟨fun _ ha => absurd ha List.not_mem_nil, ⟨store.accounts, rfl, hstore⟩, fun h => nomatch h⟩

/-- In every run of calls on a saved wallet all calls are safe exactly if each of them keeps the
saved keys in the sense of `Keeps`. -/
theorem run_safe_iff_keeps {store : WalletStore} (hstore : ∀ a ∈ store.accounts, a.Complete curve)
    (password : String) (ops : List (Operation × Call))
    (hfresh : Run.Meets (step curve hash256 hash160) Fresh (start (store.exportEncrypted password)) ops) :
    Run.Meets (step curve hash256 hash160) (Safe curve hash256 hash160)
        (start (store.exportEncrypted password)) ops ↔
      Run.Meets (step curve hash256 hash160) (Keeps curve hash256 hash160)
        (start (store.exportEncrypted password)) ops :=
  Run.meets_congr (S := Sound curve) (fun _ op hsound _ => hsound.step op)
    (fun _ _ hsound hfresh => safe_iff_keeps hsound hfresh) (sound_start hstore password) hfresh

end

/-! ## A locked wallet -/

/-- A call without exceptions, with the identifier `uuid`. -/
def plainCall (uuid : String) (h : isBlank uuid = false) : Call where
  uuid _ := uuid
  now := 1769817664
  key := 3
  hashThrows := none
  exportThrows := none
  uuid_not_blank _ := h
  now_pos := by decide
  key_pos := by decide
  key_lt := by decide

def oneKeyStore : WalletStore :=
  ⟨[⟨"first", "Principal", "address", 1, "wif", 1769817600⟩], some "first"⟩

theorem oneKeyStore_complete : ∀ a ∈ oneKeyStore.accounts, a.Complete generatorCurve := by
  intro a ha
  obtain rfl := List.mem_singleton.mp ha
  exact ⟨by decide +kernel, by decide +kernel, by decide +kernel, by decide, rfl⟩

/-- The repository after the application has been started. -/
def locked : Repository := start (oneKeyStore.exportEncrypted "secret")

/-- The WIF of the key two. -/
def twoWif : String := String.ofList (WifCodec.encode zeroHash 2 true)

/-- The import of a key into the locked wallet. -/
def importLocked : Operation × Call :=
  (.importWif "secret" none twoWif, plainCall "second" (by decide +kernel))

/-- A new account in the locked wallet. -/
def addLocked : Operation × Call := (.addAccount none, plainCall "second" (by decide +kernel))

theorem locked_not_safe :
    ¬ locked.Safe generatorCurve zeroHash firstBytes importLocked ∧
      ¬ locked.Safe generatorCurve zeroHash firstBytes addLocked := by
  constructor
  · rintro ⟨hkeys, -⟩
    have hafter : (locked.perform generatorCurve zeroHash firstBytes importLocked).2.records.map
        AccountRecord.privateKey = [2] := by
      decide +kernel
    obtain ⟨r, hr, hkey⟩ := hkeys 1 ⟨_, List.mem_cons_self, rfl⟩
    have hmem := List.mem_map_of_mem (f := AccountRecord.privateKey) hr
    rw [hafter, hkey] at hmem
    exact absurd hmem (by decide)
  · rintro ⟨-, hholds⟩
    have hok : (locked.perform generatorCurve zeroHash firstBytes addLocked).1 = .ok () := by
      decide +kernel
    have hlisted : (locked.perform generatorCurve zeroHash firstBytes
        addLocked).2.walletStore.accounts.map WalletAccount.privateKey = [3] := by
      decide +kernel
    have hsaved : (locked.perform generatorCurve zeroHash firstBytes addLocked).2.records.map
        AccountRecord.privateKey = [1] := by
      decide +kernel
    obtain ⟨a, ha, hkey⟩ : ∃ a ∈ (locked.perform generatorCurve zeroHash firstBytes
        addLocked).2.walletStore.accounts, a.privateKey = 3 := by
      rw [← List.mem_map, hlisted]
      exact List.mem_cons_self
    have hmem := List.mem_map_of_mem (f := AccountRecord.privateKey) (hholds hok a ha)
    rw [hsaved] at hmem
    change a.privateKey ∈ [1] at hmem
    rw [hkey] at hmem
    exact absurd hmem (by decide)

/-- Unlocking and adding an account. -/
theorem unlock_addAccount_safe :
    Run.Meets (step generatorCurve zeroHash firstBytes) (Safe generatorCurve zeroHash firstBytes)
      (start (oneKeyStore.exportEncrypted "secret"))
      [(.unlock "secret", plainCall "second" (by decide +kernel)), addLocked] := by
  have hsession : (locked.step generatorCurve zeroHash firstBytes
      (.unlock "secret", plainCall "second" (by decide +kernel))).sessionPassword = some "secret" := by
    decide +kernel
  have hids : (locked.step generatorCurve zeroHash firstBytes
      (.unlock "secret", plainCall "second" (by decide +kernel))).records.map AccountRecord.id =
        [some "first"] := by
    decide +kernel
  have hfresh : Run.Meets (step generatorCurve zeroHash firstBytes) Fresh
      (start (oneKeyStore.exportEncrypted "secret"))
      [(.unlock "secret", plainCall "second" (by decide +kernel)), addLocked] := by
    refine ⟨fun r hr hid => ?_, fun r hr hid => ?_, trivial⟩
    · obtain rfl := List.mem_singleton.mp hr
      exact absurd hid (by decide)
    · have hmem := List.mem_map_of_mem (f := AccountRecord.id) hr
      rw [← locked, hids, hid] at hmem
      exact absurd hmem (by decide)
  exact (run_safe_iff_keeps oneKeyStore_complete "secret" _ hfresh).mpr
    ⟨trivial, ⟨by rw [← locked, hsession]; rfl, rfl⟩, trivial⟩

end Repository

end JavaWallet

end X2XCoin

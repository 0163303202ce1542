import Mazze.Lib.AssocList

/-!
# The account cache and its checkpoints

`State` reads accounts through a cache over the database. A cache entry is an account known to
be absent from the database, or a cached account with a dirty bit. Checkpoints are a stack of
layers. A layer keeps the global statistics of its creation, and, lazily, the old cache entry of
every account first written while it is the innermost layer: `Recorded(entry)`, or `Unchanged`
where the cache had no entry. Discarding the innermost layer merges it into the one below, which
keeps its own records. Reverting it puts the recorded entries back, and drops a dirty entry
recorded as `Unchanged`.

The stack is a list with the innermost layer at its head. The database is a function from
addresses to accounts, and reading it does not fail. An account is a value of a type parameter:
`OverlayAccount` with its storage, so that a change to a storage slot is a change to the
account. The read cache of storage values that copies of an account share through an `Arc`
only ever holds values read from the unchanged database, and is not modelled; neither are the
extension fields (`code`, deposit and vote lists) that a read may load into a cached account.

The caller of `write_account_lock` and `write_account_or_new_lock` changes the account through
the guard it gets; here that change is a function `modify`.
-/

set_option autoImplicit false

namespace Mazze.Executor.StateObject

open AssocList

/-- `AccountEntry`. -/
inductive AccountEntry (Acc : Type) where
  | dbAbsent
  | cached (account : Acc) (dirty : Bool)

namespace AccountEntry

variable {Acc : Type}

def newDirty (account : Acc) : AccountEntry Acc := .cached account true

/-- An entry made from what the database holds. -/
def newLoaded : Option Acc → AccountEntry Acc
  | some account => .cached account false
  | none => .dbAbsent

def isDirty : AccountEntry Acc → Bool
  | .cached _ dirty => dirty
  | .dbAbsent => false

def account : AccountEntry Acc → Option Acc
  | .dbAbsent => none
  | .cached account _ => some account

end AccountEntry

/-- `CheckpointEntry`. -/
inductive CheckpointEntry (Acc : Type) where
  | unchanged
  | recorded (entry : AccountEntry Acc)

def CheckpointEntry.fromCache {Acc : Type} : Option (AccountEntry Acc) → CheckpointEntry Acc
  | some entry => .recorded entry
  | none => .unchanged

/-- `CheckpointLayer`: the entries form a hash map, here a list with distinct keys. -/
structure CheckpointLayer (Addr Acc GS : Type) where
  globalStat : GS
  entries : List (Addr × CheckpointEntry Acc)

/-- The error of `write_account_lock` on an account the database does not have. -/
inductive DbError (Addr : Type) where
  | incompleteDatabase (address : Addr)

structure State (Addr Acc GS : Type) where
  db : Addr → Option Acc
  cache : Addr → Option (AccountEntry Acc)
  globalStat : GS
  checkpoints : List (CheckpointLayer Addr Acc GS)

namespace State

variable {Addr Acc GS : Type} [DecidableEq Addr]

/-- `State::new`: an empty cache and no checkpoint. -/
def new (db : Addr → Option Acc) (globalStat : GS) : State Addr Acc GS :=
  ⟨db, fun _ => none, globalStat, []⟩

/-! ## Checkpoints -/

/-- `checkpoint`: push a layer, and return its index. -/
def checkpoint (c : State Addr Acc GS) : State Addr Acc GS × Nat :=
  ({ c with checkpoints := ⟨c.globalStat, []⟩ :: c.checkpoints }, c.checkpoints.length)

/-- The entries of the layer below after `discard_checkpoint`: those of the discarded layer
    if it had none, else its own with the discarded layer's drained into them. -/
def mergeEntries (checkpoint prev : List (Addr × CheckpointEntry Acc)) :
    List (Addr × CheckpointEntry Acc) :=
  if prev.isEmpty then checkpoint else mergeInto checkpoint prev

/-- `discard_checkpoint`: merge the innermost layer into the one below. -/
def discardCheckpoint (c : State Addr Acc GS) : State Addr Acc GS :=
  match c.checkpoints with
  | [] => c
  | [_] => { c with checkpoints := [] }
  | checkpoint :: prev :: rest =>
    { c with checkpoints := { prev with entries := mergeEntries checkpoint.entries prev.entries }
        :: rest }

/-- What reverting one layer entry does to the cache entry: a recorded entry comes back, and a
    dirty entry recorded as `Unchanged` is dropped. -/
def restoreEntry : CheckpointEntry Acc → AccountEntry Acc → Option (AccountEntry Acc)
  | .recorded entryInCheckpoint, _ => some entryInCheckpoint
  | .unchanged, entryInCache => if entryInCache.isDirty then none else some entryInCache

/-- `revert_to_checkpoint`: pop the innermost layer, restore its global statistics, and drain
    its entries into the cache. It is `none` where the code reaches `unreachable!`: a layer
    entry whose address the cache lacks. -/
def revertToCheckpoint (c : State Addr Acc GS) : Option (State Addr Acc GS) :=
  match c.checkpoints with
  | [] => some c
  | checkpoint :: rest =>
    (checkpoint.entries.foldlM (rewriteAt restoreEntry) c.cache).map fun cache =>
      { c with cache := cache, globalStat := checkpoint.globalStat, checkpoints := rest }

/-- Record `entry` for `address` in the innermost layer, unless it has a record already. -/
def recordInnermost (address : Addr) (entry : CheckpointEntry Acc) :
    List (CheckpointLayer Addr Acc GS) → List (CheckpointLayer Addr Acc GS)
  | [] => []
  | checkpoint :: rest =>
    { checkpoint with entries := orInsert address entry checkpoint.entries } :: rest

/-- `insert_to_cache`: put a new dirty account in the cache, and record the old entry. -/
def insertToCache (address : Addr) (account : Acc) (c : State Addr Acc GS) :
    State Addr Acc GS :=
  let oldAccountEntry := c.cache address
  { c with
    cache := Function.update c.cache address (some (.newDirty account))
    checkpoints := recordInnermost address (.fromCache oldAccountEntry) c.checkpoints }

/-- `notify_checkpoint`: record the entry before a write. -/
def notifyCheckpoint (address : Addr) (oldAccountEntry : AccountEntry Acc)
    (c : State Addr Acc GS) : State Addr Acc GS :=
  { c with checkpoints := recordInnermost address (.recorded oldAccountEntry) c.checkpoints }

/-! ## Reads and writes through the cache -/

/-- `fetch_account_mut`: the cache entry, loaded from the database if the cache has none. -/
def fetchAccountMut (address : Addr) (c : State Addr Acc GS) :
    State Addr Acc GS × AccountEntry Acc :=
  match c.cache address with
  | some entry => (c, entry)
  | none =>
    let entry := AccountEntry.newLoaded (c.db address)
    ({ c with cache := Function.update c.cache address (some entry) }, entry)

/-- `read_account_lock`: the account, or `none` if the database has none. -/
def readAccountLock (address : Addr) (c : State Addr Acc GS) :
    State Addr Acc GS × Option Acc :=
  let (c, entry) := c.fetchAccountMut address
  (c, entry.account)

/-- The cache entry of an account that a write guard hands out: dirty. -/
def setDirtyAccount (address : Addr) (account : Acc) (c : State Addr Acc GS) :
    State Addr Acc GS :=
  { c with cache := Function.update c.cache address (some (.cached account true)) }

/-- `write_account_inner`, with the change the caller makes through the guard: fetch, record
    the entry, and mark it dirty; an absent account is made by `default`, which may fail after
    the entry was recorded. -/
def writeAccountInner (address : Addr) (default : Addr → Except (DbError Addr) Acc)
    (modify : Acc → Acc) (c : State Addr Acc GS) : State Addr Acc GS × Except (DbError Addr) Unit :=
  let (c, accountEntry) := c.fetchAccountMut address
  let c := c.notifyCheckpoint address accountEntry
  match accountEntry with
  | .cached account _ => (c.setDirtyAccount address (modify account), .ok ())
  | .dbAbsent =>
    match default address with
    | .ok account => (c.setDirtyAccount address (modify account), .ok ())
    | .error e => (c, .error e)

/-- `write_account_lock`: an account the database lacks is an error. -/
def writeAccountLock (address : Addr) (modify : Acc → Acc) (c : State Addr Acc GS) :
    State Addr Acc GS × Except (DbError Addr) Unit :=
  c.writeAccountInner address (fun address => .error (.incompleteDatabase address)) modify

/-- `write_account_or_new_lock`: an account the database lacks starts as `new_basic`. -/
def writeAccountOrNewLock (newBasic : Addr → Acc) (address : Addr) (modify : Acc → Acc)
    (c : State Addr Acc GS) : State Addr Acc GS × Except (DbError Addr) Unit :=
  c.writeAccountInner address (fun address => .ok (newBasic address)) modify

/-- An update of the global statistics. -/
def updateGlobalStat (update : GS → GS) (c : State Addr Acc GS) : State Addr Acc GS :=
  { c with globalStat := update c.globalStat }

end State

/-! ## Runs -/

/-- The calls on the state. `insertToCache` is what `new_contract_with_admin` and
    `remove_contract` do after their reads. -/
inductive Op (Addr Acc GS : Type) where
  | readAccount (address : Addr)
  | writeAccount (address : Addr) (modify : Acc → Acc)
  | writeAccountOrNew (address : Addr) (modify : Acc → Acc)
  | insertToCache (address : Addr) (account : Acc)
  | updateGlobalStat (update : GS → GS)
  | checkpoint
  | discardCheckpoint
  | revertToCheckpoint

namespace Op

variable {Addr Acc GS : Type} [DecidableEq Addr]

/-- One call; `none` where it reaches `unreachable!`. A failed write keeps what it did before
    it failed. -/
def step (newBasic : Addr → Acc) (c : State Addr Acc GS) : Op Addr Acc GS →
    Option (State Addr Acc GS)
  | .readAccount address => some (c.readAccountLock address).1
  | .writeAccount address modify => some (c.writeAccountLock address modify).1
  | .writeAccountOrNew address modify => some (c.writeAccountOrNewLock newBasic address modify).1
  | .insertToCache address account => some (c.insertToCache address account)
  | .updateGlobalStat update => some (c.updateGlobalStat update)
  | .checkpoint => some c.checkpoint.1
  | .discardCheckpoint => some c.discardCheckpoint
  | .revertToCheckpoint => c.revertToCheckpoint

/-- Whether the call leaves the stack of checkpoints as it is. -/
def isPlain : Op Addr Acc GS → Bool
  | .checkpoint | .discardCheckpoint | .revertToCheckpoint => false
  | _ => true

/-- Whether the call closes the innermost checkpoint. -/
def closes : Op Addr Acc GS → Bool
  | .discardCheckpoint | .revertToCheckpoint => true
  | _ => false

end Op

/-- A sequence of calls. -/
def run {Addr Acc GS : Type} [DecidableEq Addr] (newBasic : Addr → Acc)
    (c : State Addr Acc GS) (ops : List (Op Addr Acc GS)) : Option (State Addr Acc GS) :=
  ops.foldlM (fun c op => op.step newBasic c) c

end Mazze.Executor.StateObject

import Mazze.Executor.Checkpoint

/-!
# What reverting a checkpoint gives back

A read sees the cache entry of an address, or the database where the cache has none
(`State.view`). A clean entry is what the database holds (`Inv.clean_loaded`), so what a state
shows is its dirty entries over the database: two states with the same dirty entries, the same
global statistics and the same layers look the same (`SameDirty.snapshot_eq`), and look the same
again once their innermost layers are reverted (`SameDirty.reverted`).

`State.reverted` is the revert as a total function. Under `Inv` every address a layer records is
in the cache, so `revert_to_checkpoint` never reaches `unreachable!` and gives `reverted`
(`revertToCheckpoint_eq_reverted`). For that the cache must not lose a recorded address when a
layer is reverted: an address recorded as `Unchanged` is recorded by no outer layer
(`UnchangedOutermost`).

Each call changes at most one address, and records its old entry first. So reverting the
innermost layer after the call gives the same dirty entries as reverting it before; and reverting
a layer merged by `discard_checkpoint` gives the same as reverting both layers. These are the
step lemmas of this file; `CheckpointRuns` carries them along runs.
-/

set_option autoImplicit false

namespace Mazze.Executor.StateObject

open AssocList

variable {Addr Acc GS : Type}

namespace AccountEntry

/-- The part of a cache entry that the database does not already say: the entry if dirty. -/
def dirtyPart : Option (AccountEntry Acc) → Option (AccountEntry Acc)
  | some entry => if entry.isDirty then some entry else none
  | none => none

@[simp] theorem account_newLoaded (x : Option Acc) : (newLoaded x).account = x := by
  cases x <;> rfl

@[simp] theorem isDirty_newLoaded (x : Option Acc) : (newLoaded x).isDirty = false := by
  cases x <;> rfl

@[simp] theorem dirtyPart_none : dirtyPart (none : Option (AccountEntry Acc)) = none := rfl

end AccountEntry

open AccountEntry

namespace State

/-- Reverting an `Unchanged` record never leaves a dirty entry. -/
theorem dirtyPart_bind_unchanged (x : Option (AccountEntry Acc)) :
    dirtyPart (x.bind (restoreEntry .unchanged)) = none := by
  cases x with
  | none => rfl
  | some entry =>
    cases h : entry.isDirty
    · simp [restoreEntry, h, dirtyPart]
    · simp [restoreEntry, h]

/-- Reverting a record of an address the cache holds gives the recorded entry. -/
theorem bind_restoreEntry_recorded {x : Option (AccountEntry Acc)} (hx : x.isSome)
    (entry : AccountEntry Acc) : x.bind (restoreEntry (.recorded entry)) = some entry := by
  obtain ⟨e, rfl⟩ := Option.isSome_iff_exists.mp hx
  rfl

/-! ## What a state shows -/

/-- What `read_account_lock` sees: the cache entry, or the database where the cache has none. -/
def view (c : State Addr Acc GS) (address : Addr) : Option Acc :=
  match c.cache address with
  | some entry => entry.account
  | none => c.db address

/-- Everything a caller can observe: every account as read, and the global statistics. -/
def snapshot (c : State Addr Acc GS) : (Addr → Option Acc) × GS := (c.view, c.globalStat)

/-- An address recorded as `Unchanged` has no record in an outer layer. -/
def UnchangedOutermost : List (CheckpointLayer Addr Acc GS) → Prop
  | [] => True
  | checkpoint :: rest =>
    (∀ address, (address, .unchanged) ∈ checkpoint.entries →
      ∀ layer ∈ rest, address ∉ layer.entries.map Prod.fst) ∧ UnchangedOutermost rest

/-- A layer over a cache: its clean records are what the database holds, it records only cached
    addresses, and each of them once. -/
structure LayerOk (db : Addr → Option Acc) (cache : Addr → Option (AccountEntry Acc))
    (layer : CheckpointLayer Addr Acc GS) : Prop where
  recorded_loaded : ∀ address entry, (address, .recorded entry) ∈ layer.entries →
    entry.isDirty = false → entry = .newLoaded (db address)
  keys_cached : ∀ p ∈ layer.entries, (cache p.1).isSome
  keys_nodup : (layer.entries.map Prod.fst).Nodup

/-- What the calls keep: clean entries are what the database holds, and every layer is sound
    over the cache. -/
structure Inv (c : State Addr Acc GS) : Prop where
  clean_loaded : ∀ address entry, c.cache address = some entry → entry.isDirty = false →
    entry = .newLoaded (c.db address)
  layers_ok : ∀ layer ∈ c.checkpoints, LayerOk c.db c.cache layer
  unchanged_outermost : UnchangedOutermost c.checkpoints

/-- Two states that differ at most in clean cache entries. -/
structure SameDirty (c₁ c₂ : State Addr Acc GS) : Prop where
  db_eq : c₁.db = c₂.db
  globalStat_eq : c₁.globalStat = c₂.globalStat
  checkpoints_eq : c₁.checkpoints = c₂.checkpoints
  dirtyPart_eq : ∀ address, dirtyPart (c₁.cache address) = dirtyPart (c₂.cache address)

variable {c c₁ c₂ c₃ : State Addr Acc GS}

theorem SameDirty.refl (c : State Addr Acc GS) : SameDirty c c := ⟨rfl, rfl, rfl, fun _ => rfl⟩

theorem SameDirty.symm (h : SameDirty c₁ c₂) : SameDirty c₂ c₁ :=
  ⟨h.db_eq.symm, h.globalStat_eq.symm, h.checkpoints_eq.symm, fun a => (h.dirtyPart_eq a).symm⟩

theorem SameDirty.trans (h₁ : SameDirty c₁ c₂) (h₂ : SameDirty c₂ c₃) : SameDirty c₁ c₃ :=
  ⟨h₁.db_eq.trans h₂.db_eq, h₁.globalStat_eq.trans h₂.globalStat_eq,
    h₁.checkpoints_eq.trans h₂.checkpoints_eq,
    fun a => (h₁.dirtyPart_eq a).trans (h₂.dirtyPart_eq a)⟩

/-- A read sees the dirty entry, or the database. -/
theorem Inv.view_eq (h : c.Inv) (address : Addr) :
    c.view address = match dirtyPart (c.cache address) with
      | some entry => entry.account
      | none => c.db address := by
  unfold view
  cases hca : c.cache address with
  | none => rfl
  | some entry =>
    cases hd : entry.isDirty
    · -- a clean entry is the database's
      have hloaded := h.clean_loaded address entry hca hd
      subst hloaded
      simp [dirtyPart]
    · simp [dirtyPart, hd]

theorem SameDirty.snapshot_eq (h : SameDirty c₁ c₂) (h₁ : c₁.Inv) (h₂ : c₂.Inv) :
    c₁.snapshot = c₂.snapshot := by
  have hview : c₁.view = c₂.view := by
    funext address
    rw [h₁.view_eq, h₂.view_eq, h.dirtyPart_eq, h.db_eq]
  simp [snapshot, hview, h.globalStat_eq]

/-! ## Layers -/

theorem LayerOk.of_isSome {db : Addr → Option Acc} {cache cache' : Addr → Option (AccountEntry Acc)}
    {layer : CheckpointLayer Addr Acc GS} (h : LayerOk db cache layer)
    (hsome : ∀ a, (cache a).isSome → (cache' a).isSome) : LayerOk db cache' layer :=
  ⟨h.recorded_loaded, fun p hp => hsome _ (h.keys_cached p hp), h.keys_nodup⟩

/-- A layer with no entries. -/
theorem LayerOk.empty (db : Addr → Option Acc) (cache : Addr → Option (AccountEntry Acc))
    (globalStat : GS) : LayerOk db cache (⟨globalStat, []⟩ : CheckpointLayer Addr Acc GS) :=
  ⟨by simp, by simp, by simp⟩

/-- An address the cache lacks is recorded nowhere. -/
theorem Inv.not_mem_keys (h : c.Inv) {address : Addr} (hnone : c.cache address = none) :
    ∀ layer ∈ c.checkpoints, address ∉ layer.entries.map Prod.fst := by
  intro layer hlayer hmem
  obtain ⟨p, hp, rfl⟩ := List.mem_map.mp hmem
  have := (h.layers_ok layer hlayer).keys_cached p hp
  simp [hnone] at this

variable [DecidableEq Addr]

/-- `revert_to_checkpoint` where every recorded address is cached. -/
def reverted (c : State Addr Acc GS) : State Addr Acc GS :=
  match c.checkpoints with
  | [] => c
  | checkpoint :: rest =>
    { c with
      cache := rewriteAll restoreEntry checkpoint.entries c.cache
      globalStat := checkpoint.globalStat
      checkpoints := rest }

/-- Recording a cached address keeps a layer sound, if a clean record is the database's. -/
theorem LayerOk.orInsert {db : Addr → Option Acc} {cache : Addr → Option (AccountEntry Acc)}
    {layer : CheckpointLayer Addr Acc GS} {address : Addr} {v : CheckpointEntry Acc}
    (h : LayerOk db cache layer)
    (hv : ∀ entry, v = .recorded entry → entry.isDirty = false →
      entry = .newLoaded (db address))
    (hcached : (cache address).isSome) :
    LayerOk db cache { layer with entries := AssocList.orInsert address v layer.entries } where
  recorded_loaded a entry hmem hd := by
    rcases mem_orInsert hmem with hmem | heq
    · exact h.recorded_loaded a entry hmem hd
    · cases heq
      exact hv entry rfl hd
  keys_cached p hp := by
    rcases mem_orInsert hp with hp | rfl
    · exact h.keys_cached p hp
    · exact hcached
  keys_nodup := nodup_keys_orInsert address v h.keys_nodup

/-- Recording keeps `UnchangedOutermost` if a new `Unchanged` record is of an address no outer
    layer records. -/
theorem UnchangedOutermost.recordInnermost {layers : List (CheckpointLayer Addr Acc GS)}
    {address : Addr} {v : CheckpointEntry Acc} (h : UnchangedOutermost layers)
    (hv : v = .unchanged → ∀ layer ∈ layers.tail, address ∉ layer.entries.map Prod.fst) :
    UnchangedOutermost (recordInnermost address v layers) := by
  cases layers with
  | nil => trivial
  | cons checkpoint rest =>
    obtain ⟨hhead, hrest⟩ := h
    refine ⟨?_, hrest⟩
    intro a hmem
    rcases mem_orInsert hmem with hmem | heq
    · exact hhead a hmem
    · cases heq
      exact hv rfl

/-! ## Reverting -/

theorem checkpoints_reverted (c : State Addr Acc GS) : c.reverted.checkpoints = c.checkpoints.tail := by
  unfold State.reverted
  split <;> rename_i hcp <;> simp [hcp]

theorem revertToCheckpoint_eq_reverted (h : c.Inv) : c.revertToCheckpoint = some c.reverted := by
  unfold revertToCheckpoint State.reverted
  cases hcp : c.checkpoints with
  | nil => rfl
  | cons checkpoint rest =>
    have hok := h.layers_ok checkpoint (by simp [hcp])
    dsimp only
    rw [foldlM_rewriteAt restoreEntry hok.keys_nodup c.cache hok.keys_cached]
    rfl

/-- Reverting the innermost layer keeps every address an outer layer records. -/
theorem isSome_rewriteAll_of_outer {checkpoint : CheckpointLayer Addr Acc GS} {address : Addr}
    {rest : List (CheckpointLayer Addr Acc GS)} (hcached : (c.cache address).isSome)
    (hhead : ∀ a, (a, .unchanged) ∈ checkpoint.entries →
      ∀ layer ∈ rest, a ∉ layer.entries.map Prod.fst)
    {layer : CheckpointLayer Addr Acc GS} (hlayer : layer ∈ rest)
    (hkey : address ∈ layer.entries.map Prod.fst) :
    (rewriteAll restoreEntry checkpoint.entries c.cache address).isSome := by
  cases hlook : checkpoint.entries.lookup address with
  | none => rwa [rewriteAll_of_lookup_none _ _ hlook]
  | some v =>
    rw [rewriteAll_of_lookup_some _ _ hlook]
    cases v with
    | recorded entry => simp [bind_restoreEntry_recorded hcached]
    | unchanged => exact absurd hkey (hhead address (mem_of_lookup hlook) layer hlayer)

theorem Inv.reverted (h : c.Inv) : c.reverted.Inv := by
  unfold State.reverted
  split
  · exact h
  · rename_i checkpoint rest hcp
    have hok := h.layers_ok checkpoint (by simp [hcp])
    have huo : UnchangedOutermost (checkpoint :: rest) := hcp ▸ h.unchanged_outermost
    refine ⟨?_, ?_, huo.2⟩
    · -- a clean entry after the revert was clean before, or is a clean record
      intro address entry hentry hd
      dsimp only at hentry
      cases hlook : checkpoint.entries.lookup address with
      | none =>
        rw [rewriteAll_of_lookup_none _ _ hlook] at hentry
        exact h.clean_loaded address entry hentry hd
      | some v =>
        rw [rewriteAll_of_lookup_some _ _ hlook] at hentry
        cases v with
        | recorded recordedEntry =>
          obtain ⟨e, he, hbind⟩ := Option.bind_eq_some_iff.mp hentry
          cases hbind
          exact hok.recorded_loaded address entry (mem_of_lookup hlook) hd
        | unchanged =>
          obtain ⟨e, he, hbind⟩ := Option.bind_eq_some_iff.mp hentry
          simp only [restoreEntry] at hbind
          split at hbind
          · cases hbind
          · cases hbind
            exact h.clean_loaded address entry he hd
    · -- the outer layers keep their addresses cached
      intro layer hlayer
      dsimp only at hlayer ⊢
      have hold := h.layers_ok layer (by simp [hcp, hlayer])
      refine ⟨hold.recorded_loaded, fun p hp => ?_, hold.keys_nodup⟩
      exact isSome_rewriteAll_of_outer (hold.keys_cached p hp) huo.1 hlayer
        (List.mem_map_of_mem hp)

/-- Reverting keeps two states with the same dirty entries so. -/
theorem SameDirty.reverted (h : SameDirty c₁ c₂) (h₁ : c₁.Inv) (h₂ : c₂.Inv) :
    SameDirty c₁.reverted c₂.reverted := by
  unfold State.reverted
  rw [← h.checkpoints_eq]
  split
  · exact h
  · rename_i checkpoint rest hcp
    have hok₁ := h₁.layers_ok checkpoint (by simp [hcp])
    have hok₂ := h₂.layers_ok checkpoint (by simp [h.checkpoints_eq.symm, hcp])
    refine ⟨h.db_eq, rfl, rfl, fun address => ?_⟩
    cases hlook : checkpoint.entries.lookup address with
    | none =>
      simp only [rewriteAll_of_lookup_none _ _ hlook]
      exact h.dirtyPart_eq address
    | some v =>
      simp only [rewriteAll_of_lookup_some _ _ hlook]
      cases v with
      | recorded entry =>
        rw [bind_restoreEntry_recorded (hok₁.keys_cached _ (mem_of_lookup hlook)),
          bind_restoreEntry_recorded (hok₂.keys_cached _ (mem_of_lookup hlook))]
      | unchanged => rw [dirtyPart_bind_unchanged, dirtyPart_bind_unchanged]

/-! ## Recording -/

/-- Recording a cached address keeps every layer sound. -/
theorem layersOk_recordInnermost {db : Addr → Option Acc}
    {cache : Addr → Option (AccountEntry Acc)} {layers : List (CheckpointLayer Addr Acc GS)}
    {address : Addr} {v : CheckpointEntry Acc}
    (hlayers : ∀ layer ∈ layers, LayerOk db cache layer)
    (hv : ∀ entry, v = .recorded entry → entry.isDirty = false →
      entry = .newLoaded (db address))
    (hcached : (cache address).isSome) :
    ∀ layer ∈ recordInnermost address v layers, LayerOk db cache layer := by
  cases layers with
  | nil => simp [recordInnermost]
  | cons checkpoint rest =>
    intro layer hlayer
    simp only [recordInnermost, List.mem_cons] at hlayer
    rcases hlayer with rfl | hlayer
    · exact (hlayers checkpoint List.mem_cons_self).orInsert hv hcached
    · exact hlayers layer (List.mem_cons_of_mem _ hlayer)

@[simp] theorem length_recordInnermost (address : Addr) (v : CheckpointEntry Acc)
    (layers : List (CheckpointLayer Addr Acc GS)) :
    (recordInnermost address v layers).length = layers.length := by
  cases layers <;> rfl

/-- Recording the entry the cache holds changes nothing a revert gives. -/
theorem rewriteAll_orInsert_fromCache (cache : Addr → Option (AccountEntry Acc))
    (address : Addr) (m : List (Addr × CheckpointEntry Acc)) :
    rewriteAll restoreEntry (AssocList.orInsert address (.fromCache (cache address)) m) cache =
      rewriteAll restoreEntry m cache := by
  funext a
  unfold rewriteAll
  rw [lookup_orInsert]
  cases hlook : m.lookup a with
  | some v => rfl
  | none =>
    by_cases ha : a = address
    · -- the new record gives back what the cache holds
      subst ha
      cases cache a <;> simp [CheckpointEntry.fromCache, restoreEntry]
    · simp [ha]

/-- Overwriting a recorded address changes no dirty entry of the revert, as long as a
    `Recorded` entry finds the address cached. -/
theorem dirtyPart_rewriteAll_update {m : List (Addr × CheckpointEntry Acc)}
    {cache : Addr → Option (AccountEntry Acc)} {address : Addr} {v : CheckpointEntry Acc}
    (hlook : m.lookup address = some v) (hcached : v = .unchanged ∨ (cache address).isSome)
    (entry : AccountEntry Acc) (a : Addr) :
    dirtyPart (rewriteAll restoreEntry m (Function.update cache address (some entry)) a) =
      dirtyPart (rewriteAll restoreEntry m cache a) := by
  by_cases ha : a = address
  · subst ha
    rw [rewriteAll_of_lookup_some _ _ hlook, rewriteAll_of_lookup_some _ _ hlook,
      Function.update_self]
    cases v with
    | recorded recordedEntry =>
      rw [bind_restoreEntry_recorded rfl, bind_restoreEntry_recorded (hcached.resolve_left nofun)]
    | unchanged => rw [dirtyPart_bind_unchanged, dirtyPart_bind_unchanged]
  · simp [rewriteAll, Function.update_of_ne ha]

/-! ## The calls, one by one -/

theorem reverted_checkpoint (c : State Addr Acc GS) : c.checkpoint.1.reverted = c := by
  obtain ⟨db, cache, globalStat, checkpoints⟩ := c
  rfl

omit [DecidableEq Addr] in
theorem Inv.checkpoint (h : c.Inv) : c.checkpoint.1.Inv where
  clean_loaded := h.clean_loaded
  layers_ok layer hlayer := by
    simp only [State.checkpoint, List.mem_cons] at hlayer
    rcases hlayer with rfl | hlayer
    · exact LayerOk.empty _ _ _
    · exact h.layers_ok layer hlayer
  unchanged_outermost := ⟨by simp, h.unchanged_outermost⟩

theorem fetchAccountMut_of_cached {address : Addr} {entry : AccountEntry Acc}
    (hc : c.cache address = some entry) : c.fetchAccountMut address = (c, entry) := by
  unfold fetchAccountMut
  rw [hc]

theorem fetchAccountMut_of_none {address : Addr} (hc : c.cache address = none) :
    c.fetchAccountMut address =
      ({ c with cache := Function.update c.cache address (some (.newLoaded (c.db address))) },
        .newLoaded (c.db address)) := by
  unfold fetchAccountMut
  rw [hc]

theorem fetchAccountMut_cache_self (c : State Addr Acc GS) (address : Addr) :
    (c.fetchAccountMut address).1.cache address = some (c.fetchAccountMut address).2 := by
  cases hc : c.cache address with
  | some entry => rw [fetchAccountMut_of_cached hc, hc]
  | none => simp [fetchAccountMut_of_none hc]

theorem readAccountLock_fst (c : State Addr Acc GS) (address : Addr) :
    (c.readAccountLock address).1 = (c.fetchAccountMut address).1 := rfl

/-- `fetch_account_mut` adds at most a clean entry. -/
theorem SameDirty.fetchAccountMut (c : State Addr Acc GS) (address : Addr) :
    SameDirty (c.fetchAccountMut address).1 c := by
  cases hc : c.cache address with
  | some entry =>
    rw [fetchAccountMut_of_cached hc]
    exact SameDirty.refl c
  | none =>
    rw [fetchAccountMut_of_none hc]
    refine ⟨rfl, rfl, rfl, fun a => ?_⟩
    by_cases ha : a = address
    · subst ha
      simp [hc, dirtyPart]
    · simp [Function.update_of_ne ha]

theorem Inv.fetchAccountMut (h : c.Inv) (address : Addr) :
    (c.fetchAccountMut address).1.Inv := by
  cases hc : c.cache address with
  | some entry =>
    rw [fetchAccountMut_of_cached hc]
    exact h
  | none =>
    rw [fetchAccountMut_of_none hc]
    refine ⟨fun a entry hentry hd => ?_, fun layer hlayer => ?_, h.unchanged_outermost⟩
    · by_cases ha : a = address
      · subst ha
        simp only [Function.update_self, Option.some.injEq] at hentry
        exact hentry.symm
      · simp only [Function.update_of_ne ha] at hentry
        exact h.clean_loaded a entry hentry hd
    · refine (h.layers_ok layer hlayer).of_isSome fun a ha => ?_
      by_cases hadr : a = address
      · subst hadr
        simp
      · simpa only [Function.update_of_ne hadr] using ha

/-- Recording the entry the cache holds changes nothing a revert gives. -/
theorem reverted_notifyCheckpoint {address : Addr} {entry : AccountEntry Acc}
    (hc : c.cache address = some entry) :
    (c.notifyCheckpoint address entry).reverted = c.reverted := by
  obtain ⟨db, cache, globalStat, checkpoints⟩ := c
  cases checkpoints with
  | nil => rfl
  | cons checkpoint rest =>
    have hrec : CheckpointEntry.recorded entry = .fromCache (cache address) := by
      rw [show cache address = some entry from hc]
      rfl
    simp only [notifyCheckpoint, recordInnermost, State.reverted]
    rw [hrec, rewriteAll_orInsert_fromCache]

theorem Inv.notifyCheckpoint (h : c.Inv) {address : Addr} {entry : AccountEntry Acc}
    (hc : c.cache address = some entry) : (c.notifyCheckpoint address entry).Inv where
  clean_loaded := h.clean_loaded
  layers_ok := layersOk_recordInnermost h.layers_ok
    (fun _ he hd => by
      cases he
      exact h.clean_loaded address _ hc hd)
    (Option.isSome_iff_exists.mpr ⟨entry, hc⟩)
  unchanged_outermost := h.unchanged_outermost.recordInnermost nofun

/-- A write after a record is `insert_to_cache` of the written account. -/
theorem setDirtyAccount_notifyCheckpoint {address : Addr} {entry : AccountEntry Acc}
    (hc : c.cache address = some entry) (account : Acc) :
    (c.notifyCheckpoint address entry).setDirtyAccount address account =
      c.insertToCache address account := by
  unfold notifyCheckpoint setDirtyAccount insertToCache
  rw [hc]
  rfl

theorem Inv.insertToCache (h : c.Inv) (address : Addr) (account : Acc) :
    (c.insertToCache address account).Inv where
  clean_loaded a entry hentry hd := by
    by_cases ha : a = address
    · subst ha
      simp only [State.insertToCache, Function.update_self, Option.some.injEq] at hentry
      subst hentry
      cases hd
    · simp only [State.insertToCache, Function.update_of_ne ha] at hentry
      exact h.clean_loaded a entry hentry hd
  layers_ok := by
    -- the old entry is recorded, and the address is cached now
    have hcached : ∀ a, (c.cache a).isSome →
        ((c.insertToCache address account).cache a).isSome := fun a ha => by
      by_cases hadr : a = address
      · subst hadr
        simp [State.insertToCache]
      · simpa [State.insertToCache, Function.update_of_ne hadr] using ha
    refine layersOk_recordInnermost (fun layer hlayer => (h.layers_ok layer hlayer).of_isSome
      hcached) (fun e he hd => ?_) (by simp [State.insertToCache])
    cases hc : c.cache address with
    | none => rw [hc] at he; cases he
    | some old =>
      rw [hc] at he
      cases he
      exact h.clean_loaded address _ hc hd
  unchanged_outermost := by
    -- an `Unchanged` record is of an address the cache lacked, which no layer records
    refine h.unchanged_outermost.recordInnermost fun hv layer hlayer => ?_
    cases hc : c.cache address with
    | some old => rw [hc] at hv; cases hv
    | none => exact h.not_mem_keys hc layer (List.mem_of_mem_tail hlayer)

/-- `insert_to_cache` under a checkpoint changes no dirty entry of the revert: it records the old
    entry first. -/
theorem SameDirty.reverted_insertToCache (h : c.Inv) (hcp : c.checkpoints ≠ [])
    (address : Addr) (account : Acc) :
    SameDirty (c.insertToCache address account).reverted c.reverted := by
  obtain ⟨checkpoint, rest, hcons⟩ := List.exists_cons_of_ne_nil hcp
  -- the record the innermost layer ends up with: `Recorded` only of a cached address
  have hlook : ∃ v, (AssocList.orInsert address (.fromCache (c.cache address))
      checkpoint.entries).lookup address = some v ∧
      (v = .unchanged ∨ (c.cache address).isSome) := by
    rw [lookup_orInsert]
    cases hc : c.cache address with
    | some old => simp
    | none =>
      have hnot := h.not_mem_keys hc checkpoint (by simp [hcons])
      simp [lookup_eq_none_iff_not_mem_keys.mpr hnot, CheckpointEntry.fromCache]
  obtain ⟨v, hlook, hcached⟩ := hlook
  obtain ⟨db, cache, globalStat, checkpoints⟩ := c
  subst hcons
  refine ⟨rfl, rfl, rfl, fun a => ?_⟩
  simp only [State.insertToCache, recordInnermost, State.reverted]
  rw [dirtyPart_rewriteAll_update hlook hcached, rewriteAll_orInsert_fromCache]

/-- What `write_account_inner` leaves: the fetched entry recorded, and then the account written,
    unless `default` failed. -/
theorem writeAccountInner_cases (c : State Addr Acc GS) (address : Addr)
    (default : Addr → Except (DbError Addr) Acc) (modify : Acc → Acc) :
    (c.writeAccountInner address default modify).1 =
        (c.fetchAccountMut address).1.notifyCheckpoint address (c.fetchAccountMut address).2 ∨
      ∃ account, (c.writeAccountInner address default modify).1 =
        (c.fetchAccountMut address).1.insertToCache address account := by
  have hc := fetchAccountMut_cache_self c address
  unfold writeAccountInner
  generalize c.fetchAccountMut address = fetched at hc ⊢
  obtain ⟨c', entry⟩ := fetched
  cases entry with
  | cached account dirty =>
    exact .inr ⟨modify account, setDirtyAccount_notifyCheckpoint hc _⟩
  | dbAbsent =>
    dsimp only
    cases default address with
    | ok account => exact .inr ⟨modify account, setDirtyAccount_notifyCheckpoint hc _⟩
    | error e => exact .inl rfl

theorem length_checkpoints_writeAccountInner (c : State Addr Acc GS) (address : Addr)
    (default : Addr → Except (DbError Addr) Acc) (modify : Acc → Acc) :
    (c.writeAccountInner address default modify).1.checkpoints.length = c.checkpoints.length := by
  have hfetch := (SameDirty.fetchAccountMut c address).checkpoints_eq
  rcases writeAccountInner_cases c address default modify with heq | ⟨account, heq⟩ <;>
    simp [heq, State.notifyCheckpoint, State.insertToCache, hfetch]

theorem Inv.writeAccountInner (h : c.Inv) (address : Addr)
    (default : Addr → Except (DbError Addr) Acc) (modify : Acc → Acc) :
    (c.writeAccountInner address default modify).1.Inv := by
  have hfetch := h.fetchAccountMut address
  rcases writeAccountInner_cases c address default modify with heq | ⟨account, heq⟩ <;> rw [heq]
  · exact hfetch.notifyCheckpoint (fetchAccountMut_cache_self c address)
  · exact hfetch.insertToCache address account

/-- A write under a checkpoint changes no dirty entry of the revert. -/
theorem SameDirty.reverted_writeAccountInner (h : c.Inv) (hcp : c.checkpoints ≠ [])
    (address : Addr) (default : Addr → Except (DbError Addr) Acc) (modify : Acc → Acc) :
    SameDirty (c.writeAccountInner address default modify).1.reverted c.reverted := by
  have hfetch := SameDirty.fetchAccountMut c address
  -- the fetch only adds a clean entry, which a revert keeps clean
  have hbase : SameDirty (c.fetchAccountMut address).1.reverted c.reverted :=
    hfetch.reverted (h.fetchAccountMut address) h
  rcases writeAccountInner_cases c address default modify with heq | ⟨account, heq⟩ <;> rw [heq]
  · rw [reverted_notifyCheckpoint (fetchAccountMut_cache_self c address)]
    exact hbase
  · have hcp' : (c.fetchAccountMut address).1.checkpoints ≠ [] := by
      rwa [hfetch.checkpoints_eq]
    exact (SameDirty.reverted_insertToCache (h.fetchAccountMut address) hcp' address
      account).trans hbase

omit [DecidableEq Addr] in
theorem Inv.updateGlobalStat (h : c.Inv) (update : GS → GS) : (c.updateGlobalStat update).Inv :=
  ⟨h.clean_loaded, h.layers_ok, h.unchanged_outermost⟩

/-- A revert puts back the global statistics of the checkpoint, whatever the update. -/
theorem reverted_updateGlobalStat (hcp : c.checkpoints ≠ []) (update : GS → GS) :
    (c.updateGlobalStat update).reverted = c.reverted := by
  obtain ⟨checkpoint, rest, hcons⟩ := List.exists_cons_of_ne_nil hcp
  obtain ⟨db, cache, globalStat, checkpoints⟩ := c
  subst hcons
  rfl

/-! ## Discarding -/

theorem lookup_mergeEntries (checkpoint prev : List (Addr × CheckpointEntry Acc)) (a : Addr) :
    (mergeEntries checkpoint prev).lookup a = (prev.lookup a).or (checkpoint.lookup a) := by
  unfold mergeEntries
  split
  · rename_i hempty
    rw [List.isEmpty_iff.mp hempty]
    rfl
  · exact lookup_mergeInto checkpoint prev a

theorem nodup_keys_mergeEntries {checkpoint prev : List (Addr × CheckpointEntry Acc)}
    (htop : (checkpoint.map Prod.fst).Nodup) (hprev : (prev.map Prod.fst).Nodup) :
    ((mergeEntries checkpoint prev).map Prod.fst).Nodup := by
  unfold mergeEntries
  split
  · exact htop
  · exact nodup_keys_mergeInto checkpoint hprev

/-- An entry of the merged layer is an entry of one of the two layers. -/
theorem mem_mergeEntries {checkpoint prev : List (Addr × CheckpointEntry Acc)}
    (htop : (checkpoint.map Prod.fst).Nodup) (hprev : (prev.map Prod.fst).Nodup)
    {p : Addr × CheckpointEntry Acc} (hp : p ∈ mergeEntries checkpoint prev) :
    p ∈ prev ∨ p ∈ checkpoint := by
  have hlook := lookup_of_mem (nodup_keys_mergeEntries htop hprev) hp
  rw [lookup_mergeEntries, Option.or_eq_some_iff] at hlook
  rcases hlook with hlook | ⟨-, hlook⟩
  · exact .inl (mem_of_lookup hlook)
  · exact .inr (mem_of_lookup hlook)

/-- The layer that `discard_checkpoint` leaves is sound. -/
theorem LayerOk.mergeEntries {db : Addr → Option Acc} {cache : Addr → Option (AccountEntry Acc)}
    {checkpoint prev : CheckpointLayer Addr Acc GS} (htop : LayerOk db cache checkpoint)
    (hprev : LayerOk db cache prev) :
    LayerOk db cache { prev with entries := mergeEntries checkpoint.entries prev.entries } where
  recorded_loaded a entry hp hd :=
    (mem_mergeEntries htop.keys_nodup hprev.keys_nodup hp).elim
      (fun hp => hprev.recorded_loaded a entry hp hd) (fun hp => htop.recorded_loaded a entry hp hd)
  keys_cached p hp :=
    (mem_mergeEntries htop.keys_nodup hprev.keys_nodup hp).elim (hprev.keys_cached p)
      (htop.keys_cached p)
  keys_nodup := nodup_keys_mergeEntries htop.keys_nodup hprev.keys_nodup

theorem Inv.discardCheckpoint (h : c.Inv) : c.discardCheckpoint.Inv := by
  unfold State.discardCheckpoint
  split
  · exact h
  · exact ⟨h.clean_loaded, by simp, trivial⟩
  · rename_i checkpoint prev rest hcp
    have hlayers : ∀ layer ∈ checkpoint :: prev :: rest, LayerOk c.db c.cache layer :=
      hcp ▸ h.layers_ok
    have huo : UnchangedOutermost (checkpoint :: prev :: rest) := hcp ▸ h.unchanged_outermost
    have htop := hlayers checkpoint (by simp)
    have hprev := hlayers prev (by simp)
    refine ⟨h.clean_loaded, fun layer hlayer => ?_, ⟨fun a hmem layer hlayer => ?_, huo.2.2⟩⟩
    · rcases List.mem_cons.mp hlayer with rfl | hlayer
      · exact htop.mergeEntries hprev
      · exact hlayers layer (by simp [hlayer])
    · -- an `Unchanged` record of the merged layer is one of the inner or of the outer layer
      rcases mem_mergeEntries htop.keys_nodup hprev.keys_nodup hmem with hmem | hmem
      · exact huo.2.1 a hmem layer hlayer
      · exact huo.1 a hmem layer (List.mem_cons_of_mem _ hlayer)

/-- Reverting the merged layer gives the dirty entries of reverting the two layers, the inner one
    first: the outer layer's record is the older one, and where it has none the inner layer's
    record is reverted as before. -/
theorem SameDirty.reverted_discardCheckpoint (h : c.Inv)
    {checkpoint prev : CheckpointLayer Addr Acc GS} {rest : List (CheckpointLayer Addr Acc GS)}
    (hcp : c.checkpoints = checkpoint :: prev :: rest) :
    SameDirty c.discardCheckpoint.reverted c.reverted.reverted := by
  have hlayers : ∀ layer ∈ checkpoint :: prev :: rest, LayerOk c.db c.cache layer :=
    hcp ▸ h.layers_ok
  have huo : UnchangedOutermost (checkpoint :: prev :: rest) := hcp ▸ h.unchanged_outermost
  have hprev := hlayers prev (by simp)
  -- a `Recorded` entry of the outer layer finds its address cached, before and after the inner
  -- layer is reverted
  have hcached : ∀ a v, prev.entries.lookup a = some v → (c.cache a).isSome ∧
      (rewriteAll restoreEntry checkpoint.entries c.cache a).isSome := fun a v hlook => by
    have hsome := hprev.keys_cached _ (mem_of_lookup hlook)
    exact ⟨hsome, isSome_rewriteAll_of_outer hsome huo.1 List.mem_cons_self
      (List.mem_map_of_mem (mem_of_lookup hlook))⟩
  obtain ⟨db, cache, globalStat, checkpoints⟩ := c
  subst hcp
  refine ⟨rfl, rfl, rfl, fun a => ?_⟩
  simp only [State.discardCheckpoint, State.reverted]
  cases hlook : prev.entries.lookup a with
  | none =>
    have hmerged : (mergeEntries checkpoint.entries prev.entries).lookup a =
        checkpoint.entries.lookup a := by
      rw [lookup_mergeEntries, hlook, Option.none_or]
    rw [rewriteAll_of_lookup_none _ _ hlook]
    simp only [rewriteAll, hmerged]
  | some v =>
    have hmerged : (mergeEntries checkpoint.entries prev.entries).lookup a = some v := by
      rw [lookup_mergeEntries, hlook, Option.some_or]
    obtain ⟨hsome, hsome'⟩ := hcached a v hlook
    rw [rewriteAll_of_lookup_some _ _ hlook, rewriteAll_of_lookup_some _ _ hmerged]
    cases v with
    | recorded entry =>
      rw [bind_restoreEntry_recorded hsome, bind_restoreEntry_recorded hsome']
    | unchanged => rw [dirtyPart_bind_unchanged, dirtyPart_bind_unchanged]

theorem length_checkpoints_discardCheckpoint (c : State Addr Acc GS) :
    c.discardCheckpoint.checkpoints.length = c.checkpoints.length - 1 := by
  unfold State.discardCheckpoint
  split <;> rename_i hcp <;> simp [hcp]

/-- `discard_checkpoint` changes nothing a caller can see. -/
theorem snapshot_discardCheckpoint (c : State Addr Acc GS) :
    c.discardCheckpoint.snapshot = c.snapshot := by
  unfold State.discardCheckpoint
  split <;> rfl

end State

end Mazze.Executor.StateObject

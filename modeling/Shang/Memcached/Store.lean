import Shang.Memcached.ItemAlloc

/-!
# The commands of memcached

What the connections of `memcached.c` do with the cache. A `set` first allocates its item
(`process_update_command`), then its data are read, and then the item is stored
(`complete_nread_ascii`, `do_store_item`); a `get` hands items out that are given back when
they were sent (`process_get_command`, `conn_release_items`). What one command does under its
locks is one step, and the steps of the connections come in any order. While `assoc_expand`
has `cache_lock`, they wait.
-/

namespace Shang.Memcached

open Lib Function

/-! ## The program -/

/-- `NREAD_ADD` to `NREAD_CAS` -/
inductive StoreCmd
  | add
  | set
  | replace
  | append
  | prepend
  | cas
  deriving DecidableEq

/-- `enum store_item_type` -/
inductive StoreItemType
  | notStored
  | stored
  | exists_
  | notFound
  deriving DecidableEq

/-- `memcpy` of the first bytes of a list. -/
def memcpy (dst : List UInt8) (off : Nat) (src : List UInt8) (n : Nat) : List UInt8 :=
  dst.take off ++ src.take n ++ dst.drop (off + n)

/-- The data of the item that `append` and `prepend` store; two bytes at the end of the first
part are overwritten. -/
def joined (comm : StoreCmd) (old it : Content) (data : List UInt8) : List UInt8 :=
  if comm = .append then
    memcpy (memcpy data 0 old.data old.nbytes) (old.nbytes - 2) it.data it.nbytes
  else memcpy (memcpy data 0 it.data it.nbytes) (it.nbytes - 2) old.data old.nbytes

/-- What a client stores. -/
structure Value where
  flags : Int
  exptime : Nat
  data : List UInt8
  deriving DecidableEq

def Content.value (it : Content) : Value := ⟨it.flags, it.exptime, it.data⟩

/-- The value that a command stores; the end of the line goes from between two parts. -/
def StoreCmd.result (comm : StoreCmd) (old : Option Value) (new : Value) : Value :=
  match comm, old with
  | .append, some old => { old with data := old.data.take (old.data.length - 2) ++ new.data }
  | .prepend, some old => { old with data := new.data.take (new.data.length - 2) ++ old.data }
  | _, _ => new

namespace Cache

variable (g : Settings)

/-- `item_replace`, and the release of the old item. -/
def replaceOld (s : Cache) (oldIt it : Nat) (hv : UInt32) : Option Cache := do
  let s ← s.doItemReplace g oldIt it hv
  s.doItemRemove g oldIt

/-- The part of `do_store_item` for `append` and `prepend`. -/
def storeJoined (s : Cache) (oldIt it : Nat) (comm : StoreCmd) (hv : UInt32)
    (trylock : Nat → Bool) (page : Nat → Option Nat) : Option (Cache × StoreItemType) :=
  if (s.item it).getCas ≠ 0 ∧ (s.item it).getCas ≠ (s.item oldIt).getCas then do
    let s ← s.doItemRemove g oldIt
    return (s, .exists_)
  else do
    let (s, newIt) ← s.doItemAlloc g (s.item it).key (s.item oldIt).flags (s.item oldIt).exptime
      ((s.item it).nbytes + (s.item oldIt).nbytes - 2) hv trylock page
    if newIt = 0 then
      let s ← s.doItemRemove g oldIt
      return (s, .notStored)
    else
      let s := s.set newIt fun h =>
        { h with data := joined comm (s.item oldIt).toContent (s.item it).toContent h.data }
      let s ← s.replaceOld g oldIt newIt hv
      let s ← s.doItemRemove g newIt
      return (s, .stored)

/-- `do_store_item` -/
def doStoreItem (s : Cache) (it : Nat) (comm : StoreCmd) (hv : UInt32) (trylock : Nat → Bool)
    (page : Nat → Option Nat) : Option (Cache × StoreItemType) := do
  let (s, oldIt) ← s.doItemGet g (s.item it).key hv
  if oldIt = 0 then
    if comm = .replace ∨ comm = .append ∨ comm = .prepend then return (s, .notStored)
    else if comm = .cas then return (s, .notFound)
    else
      let s ← s.doItemLink g it hv
      return (s, .stored)
  else if comm = .add then
    let s ← s.doItemUpdate oldIt
    let s ← s.doItemRemove g oldIt
    return (s, .notStored)
  else if comm = .append ∨ comm = .prepend then s.storeJoined g oldIt it comm hv trylock page
  else if comm = .cas ∧ (s.item it).getCas ≠ (s.item oldIt).getCas then
    let s ← s.doItemRemove g oldIt
    return (s, .exists_)
  else
    let s ← s.replaceOld g oldIt it hv
    return (s, .stored)

end Cache

namespace Cache

/-! ## What a command leaves -/

section Effect

variable {g : Settings} {s t u : Cache} {q : Place → List Nat} {stored : List Item}
  {own held lnk off fresh : List Nat} {id it p r : Nat} {f : Stritem → Stritem}

/-- No items but those of `lnk` come into the cache, and what stays there says what it said; the
items that are `held` do so wherever they are. -/
structure Remains (held lnk : List Nat) (s t : Cache) : Prop where
  linked : ∀ r ∉ lnk, (t.item r).linked = true → (s.item r).linked = true
  entry : ∀ r ∉ lnk, (t.item r).linked = true → (t.item r).toContent = (s.item r).toContent
  held : ∀ r ∈ held, r ∉ lnk → (t.item r).toContent = (s.item r).toContent
  casId : s.casId ≤ t.casId

/-- What an operation of the connections leaves. -/
structure Effect (held lnk : List Nat) (s t : Cache) : Prop extends Remains held lnk s t where
  thread : t.assoc.thread = s.assoc.thread
  currentTime : t.currentTime = s.currentTime

theorem Effect.trans (first : Effect held lnk s t) (rest : Effect held lnk t u) :
    Effect held lnk s u where
  linked r out there := first.linked r out (rest.linked r out there)
  entry r out there :=
    (rest.entry r out there).trans (first.entry r out (rest.linked r out there))
  held r mem out := (rest.held r mem out).trans (first.held r mem out)
  thread := rest.thread.trans first.thread
  currentTime := rest.currentTime.trans first.currentTime
  casId := first.casId.trans rest.casId

theorem Kept.effect (kept : Kept off fresh s t) : Effect held lnk s t where
  linked r _ there := ((kept.linked r).mp there).1
  entry r _ _ := kept.content r
  held r _ _ := kept.content r
  thread := kept.thread
  currentTime := kept.currentTime
  casId := Nat.le_of_eq kept.casId.symm

theorem Moved.effect {page : Option Nat} (moved : Moved g own id page off fresh s t)
    (sub : held ⊆ own) : Effect held lnk s t where
  linked r _ there := ((moved.linked r).mp there).1
  entry r _ there :=
    have ⟨linked, stays⟩ := (moved.linked r).mp there
    moved.content r stays (.inl linked)
  held r mem _ := moved.content r (fun gone => (moved.off r gone).2.1 (sub mem)) (.inr (sub mem))
  thread := moved.thread
  currentTime := moved.currentTime
  casId := Nat.le_of_eq moved.casId.symm

theorem Linked.effect (linked : Linked g p s t) : Effect held [p] s t where
  linked r out there := linked.others r (by simpa using out) ▸ there
  entry r out _ := by rw [linked.others r (by simpa using out)]
  held r _ out := by rw [linked.others r (by simpa using out)]
  thread := linked.thread
  currentTime := linked.currentTime
  casId := by
    rw [linked.casId]
    split <;> omega

/-- An item is written that is not in the cache yet. -/
theorem Effect.set (unheld : p ∉ held) (unlinked : (s.item p).linked = false)
    (same : (f (s.item p)).linked = (s.item p).linked) : Effect held lnk s (s.set p f) where
  linked r _ there := by rwa [set_item_of_eq (·.linked) same] at there
  entry r _ there := by
    rw [set_item_of_eq (·.linked) same] at there
    rw [set_item_of_ne]
    rintro rfl
    rw [unlinked] at there
    cases there
  held r mem _ := by rw [set_item_of_ne (ne_of_mem_of_not_mem mem unheld)]
  thread := rfl
  currentTime := rfl
  casId := Nat.le_refl _

/-- The item has a cas id that none had before. -/
def Young (g : Settings) (p : Nat) (s t : Cache) : Prop :=
  g.useCas = true → s.casId < (t.item p).cas ∧ (t.item p).cas ≤ t.casId

/-- What is in the cache was there before, or has a cas id that none had before. -/
def Ages (g : Settings) (s t : Cache) : Prop :=
  s.casId ≤ t.casId ∧ ∀ r, (t.item r).linked = true →
    (s.item r).linked = true ∧ (t.item r).toContent = (s.item r).toContent ∨ Young g r s t

theorem Remains.ages (rest : Remains held lnk s t) (young : ∀ p ∈ lnk, Young g p s t) :
    Ages g s t := by
  refine ⟨rest.casId, fun r there => ?_⟩
  by_cases new : r ∈ lnk
  · exact .inr (young r new)
  · exact .inl ⟨rest.linked r new there, rest.entry r new there⟩

theorem Ages.refl (s : Cache) : Ages g s s := ⟨Nat.le_refl _, fun _ there => .inl ⟨there, rfl⟩⟩

theorem Ages.trans (first : Ages g s t) (rest : Ages g t u) : Ages g s u := by
  refine ⟨first.1.trans rest.1, fun r there => ?_⟩
  rcases rest.2 r there with ⟨linked, same⟩ | young
  · rcases first.2 r linked with ⟨linked', same'⟩ | young
    · exact .inl ⟨linked', same.trans same'⟩
    · refine .inr fun use => ?_
      rw [same]
      exact ⟨(young use).1, (young use).2.trans rest.1⟩
  · exact .inr fun use => ⟨first.1.trans_lt (young use).1, (young use).2⟩

/-- An item with the value comes into the cache, in the place of any other one with its key. -/
def Puts (g : Settings) (own : List Nat) (s t : Cache) (key : List UInt8) (v : Value) : Prop :=
  ∃ p ∉ own, Effect own [p] s t ∧ (t.item p).linked = true ∧ (t.item p).key = key ∧
    (t.item p).value = v ∧ Young g p s t

theorem Linked.young (linked : Linked g p s t) : Young g p s t := by
  intro use
  have cas : (t.item p).cas = s.casId + 1 := by
    rw [linked.content, if_pos use]
  have next := linked.casId
  rw [if_pos use] at next
  omega

/-- What is kept before and behind does not matter. -/
theorem Young.within {m n : Cache} (h : Young g p m n) (before : s.casId ≤ m.casId)
    (kept : Kept off fresh n t) : Young g p s t := by
  intro use
  obtain ⟨later, bound⟩ := h use
  rw [kept.content, kept.casId]
  exact ⟨before.trans_lt later, bound⟩

theorem Linked.said (linked : Linked g p s t) :
    (t.item p).key = (s.item p).key ∧ (t.item p).value = (s.item p).value := by
  rw [linked.content]
  split <;> exact ⟨rfl, rfl⟩

theorem Kept.said (kept : Kept off fresh s t) :
    (t.item p).key = (s.item p).key ∧ (t.item p).value = (s.item p).value := by
  rw [kept.content]
  exact ⟨rfl, rfl⟩

/-- The new item takes the place of the old one, and the reference to the old one is given up. -/
theorem Sound.replaceOld {old : Nat} (h : Sound g s q stored (p :: old :: own) [])
    (linked : (s.item old).linked = true) (unlinked : (s.item p).linked = false)
    (key : (s.item old).key = (s.item p).key) (unheld : p ∉ own)
    (out : ¬ s.assoc.thread.Expands) (now : 0 < s.currentTime) :
    ∃ t q' stored', s.replaceOld g old p (g.hash (s.item p).key) = some t ∧
      Sound g t q' stored' (p :: own) [] ∧
      Puts g own s t (s.item p).key (s.item p).value := by
  have apart : old ≠ p := by
    rintro rfl
    rw [linked] at unlinked
    cases unlinked
  have few : (old :: own).count p + 2 < 65536 := by
    rw [List.count_cons_of_ne apart, List.count_eq_zero.mpr unheld]
    decide
  obtain ⟨m, v, q', stored', ran, sound, kept, put⟩ :=
    h.replace linked unlinked key out few now
  obtain ⟨t, q'', removed, sound', -, kept'⟩ := (sound.perm (.swap old p own)).remove
  refine ⟨t, q'', stored', ?_, sound', p, unheld,
    (kept.effect.trans put.effect).trans kept'.effect,
    (kept'.linked p).mpr ⟨put.linked, List.not_mem_nil⟩, ?_, ?_,
    put.young.within (Nat.le_of_eq kept.casId.symm) kept'⟩
  · rw [Cache.replaceOld, ran]
    exact removed
  · exact (kept'.said.1.trans put.said.1).trans kept.said.1
  · exact (kept'.said.2.trans put.said.2).trans kept.said.2

/-- The second part overwrites the last two bytes of the first one. -/
theorem memcpy_memcpy {dst a b : List UInt8} {n m : Nat} (left : a.length = n)
    (right : b.length = m) (bytes : 2 ≤ n) (bytes' : 2 ≤ m)
    (room : dst.length = n + m - 2) :
    memcpy (memcpy dst 0 a n) (n - 2) b m = a.take (n - 2) ++ b := by
  subst left right
  simp only [memcpy, List.take_zero, List.nil_append, List.take_length, Nat.zero_add]
  rw [List.take_append_of_le_length (Nat.sub_le _ _), List.drop_eq_nil_of_le, List.append_nil]
  rw [List.length_append, List.length_drop, room]
  omega

/-- What `append` and `prepend` put together is the value of the command on the old value. -/
theorem joined_eq {comm : StoreCmd} {old it : Content} {data : List UInt8}
    (joins : comm = .append ∨ comm = .prepend) (left : old.data.length = old.nbytes)
    (right : it.data.length = it.nbytes) (bytes : 2 ≤ old.nbytes) (bytes' : 2 ≤ it.nbytes)
    (room : data.length = it.nbytes + old.nbytes - 2) :
    (⟨old.flags, old.exptime, joined comm old it data⟩ : Value) =
        comm.result (some old.value) it.value ∧
      (joined comm old it data).length = data.length := by
  rw [joined]
  rcases joins with rfl | rfl
  · rw [if_pos rfl, memcpy_memcpy left right bytes bytes' (by rw [room, Nat.add_comm])]
    refine ⟨by simp [StoreCmd.result, Content.value, left], ?_⟩
    rw [List.length_append, List.length_take, left, right, room]
    omega
  · rw [if_neg (by decide), memcpy_memcpy right left bytes' bytes room]
    refine ⟨by simp [StoreCmd.result, Content.value, right], ?_⟩
    rw [List.length_append, List.length_take, left, right, room]
    omega

theorem Effect.mono {held' : List Nat} (h : Effect held' lnk s t) (sub : held ⊆ held') :
    Effect held lnk s t :=
  ⟨⟨h.linked, h.entry, fun r mem => h.held r (sub mem), h.casId⟩, h.thread, h.currentTime⟩

theorem Effect.weaken {lnk' : List Nat} (h : Effect held lnk s t) (sub : lnk ⊆ lnk') :
    Effect held lnk' s t where
  linked r out there := h.linked r (fun mem => out (sub mem)) there
  entry r out there := h.entry r (fun mem => out (sub mem)) there
  held r mem out := h.held r mem fun mem => out (sub mem)
  thread := h.thread
  currentTime := h.currentTime
  casId := h.casId

theorem slabsClsid_lt (g : Settings) (size : Nat) : slabsClsid g size < g.powerLargest + 1 := by
  by_cases none_ : slabsClsid g size = 0
  · rw [none_]
    exact Nat.succ_pos _
  · exact Nat.lt_succ_of_le (slabsClsid_spec none_).1.2

/-- `append` and `prepend` store both parts in an item of their own. -/
theorem Sound.storeJoined {old : Nat} (h : Sound g s q stored (old :: it :: own) [])
    (comm : StoreCmd) (trylock : Nat → Bool) (page : Nat → Option Nat)
    (joins : comm = .append ∨ comm = .prepend) (linked : (s.item old).linked = true)
    (key : (s.item old).key = (s.item it).key) (out : ¬ s.assoc.thread.Expands)
    (few : ∀ p, (old :: it :: own).count p + 2 < 65536) (now : 0 < s.currentTime)
    (norepair : g.tailRepairTime = 0)
    (pages : ∀ id < g.powerLargest + 1, ∀ ptr ∈ page id, PageOk g s.slabList id ptr) :
    ∃ t r q' stored',
      s.storeJoined g old it comm (g.hash (s.item it).key) trylock page = some (t, r) ∧
      Sound g t q' stored' (it :: own) [] ∧
      (r ≠ .stored ∧ Effect own [] s t ∨ r = .stored ∧ Puts g own s t (s.item it).key
        (comm.result (some (s.item old).value) (s.item it).value)) := by
  have sub : own ⊆ old :: it :: own := fun r mem => by simp [mem]
  have usedOld := (h.items old).used (.inl linked)
  have usedIt := (h.items it).used (.inr (by simp))
  have bytes := usedOld.nbytes
  have bytes' := usedIt.nbytes
  rw [Cache.storeJoined]
  by_cases seen : (s.item it).getCas ≠ 0 ∧ (s.item it).getCas ≠ (s.item old).getCas
  · obtain ⟨t, q', removed, sound, -, kept⟩ := h.remove
    refine ⟨t, .exists_, q', stored, ?_, sound, .inl ⟨by decide, kept.effect⟩⟩
    rw [if_pos seen, removed]
    rfl
  · rw [if_neg seen]
    obtain ⟨t, new, off, fresh, ran, moved, none_ | some_⟩ :=
      h.alloc (s.item it).key (s.item old).flags (s.item old).exptime
        ((s.item it).nbytes + (s.item old).nbytes - 2) (g.hash (s.item it).key) trylock page out
        few now norepair (by omega) rfl (pages _ (slabsClsid_lt g _))
    · obtain ⟨rfl, -, q', stored', sound⟩ := none_
      obtain ⟨u, q'', removed, sound', -, kept⟩ := sound.remove
      refine ⟨u, .notStored, q'', stored', ?_, sound',
        .inl ⟨by decide, (moved.effect sub).trans kept.effect⟩⟩
      rw [ran, Option.bind_eq_bind, Option.bind_some]
      dsimp only
      rw [if_pos rfl, removed]
      rfl
    · obtain ⟨found, ⟨q', stored', sound⟩, unheld, unlinked, content⟩ := some_
      have stays : ∀ r ∈ old :: it :: own, r ∉ off := fun r mem gone => (moved.off r gone).2.1 mem
      have same : ∀ r ∈ old :: it :: own, (t.item r).toContent = (s.item r).toContent :=
        fun r mem => moved.content r (stays r mem) (.inr mem)
      have room : (t.item new).data.length = (s.item it).nbytes + (s.item old).nbytes - 2 := by
        rw [content]
        exact List.length_replicate ..
      obtain ⟨value, length⟩ :=
        joined_eq joins usedOld.data usedIt.data bytes bytes' room
      obtain ⟨data, made⟩ : ∃ data, data =
        joined comm (s.item old).toContent (s.item it).toContent (t.item new).data := ⟨_, rfl⟩
      rw [← made] at value length
      have ok := sound.items new
      have used := ok.used (.inr List.mem_cons_self)
      have written : Sound g (t.set new fun h => { h with data := data }) q' stored'
          (new :: old :: it :: own) [] :=
        sound.set _ ⟨ok.free, ok.slabbed, ok.lru, fun _ => ⟨used.slabbed, used.isClass, used.chunk,
          used.fits, length.trans used.data, used.nbytes, used.isCas⟩, ok.refs, ok.small, ok.time⟩
          (fun _ _ => rfl) rfl rfl rfl (List.Subset.refl _) fun held => .inr (.inl held)
      have effect : Effect own [] s (t.set new fun h => { h with data := data }) :=
        (moved.effect sub).trans (.set (fun held => unheld (sub held)) unlinked rfl)
      have other : old ≠ new := by
        rintro rfl
        exact unheld List.mem_cons_self
      have keyNew : (t.item new).key = (s.item it).key := by
        rw [content]
        rfl
      have valueNew : ({ t.item new with data := data } : Stritem).value =
          comm.result (some (s.item old).value) (s.item it).value := by
        rw [← value]
        change (⟨(t.item new).flags, (t.item new).exptime, data⟩ : Value) = _
        rw [content]
        rfl
      generalize state : t.set new (fun h => { h with data := data }) = m at written effect
      have copied : (t.set new fun h => { h with
          data := joined comm (s.item old).toContent (s.item it).toContent h.data }) = m := by
        rw [← state, made]
        rfl
      have itemNew : m.item new = { t.item new with data := data } := by
        rw [← state, set_item_self]
      have itemOld : m.item old = t.item old := by rw [← state, set_item_of_ne other]
      have keyM : (m.item new).key = (s.item it).key := by rw [itemNew, keyNew]
      obtain ⟨u, q₂, stored₂, ran', sound₂, p, off', put, there, keyP, valueP, young⟩ :=
        written.replaceOld
          (by rw [itemOld]; exact (moved.linked old).mpr ⟨linked, stays old (by simp)⟩)
          (by rw [itemNew]; exact unlinked)
          (by rw [keyM, itemOld, same old (by simp), key])
          (fun mem => unheld (List.mem_cons_of_mem old mem))
          (by rw [effect.thread]; exact out) (by rw [effect.currentTime]; exact now)
      obtain ⟨w, q₃, removed, sound₃, -, kept⟩ := sound₂.remove
      refine ⟨w, .stored, q₃, stored₂, ?_, sound₃, .inr ⟨rfl, p, fun mem => off' (by simp [mem]),
        ?_, (kept.linked p).mpr ⟨there, List.not_mem_nil⟩, ?_, ?_,
        young.within effect.casId kept⟩⟩
      · rw [ran, Option.bind_eq_bind, Option.bind_some]
        dsimp only
        rw [if_neg found, same old (by simp), same it (by simp), copied, ← keyM, ran',
          Option.bind_eq_bind, Option.bind_some, removed]
        rfl
      · exact ((effect.weaken (List.nil_subset _)).trans
          (put.mono (List.subset_cons_self it own))).trans kept.effect
      · rw [kept.said.1, keyP, keyM]
      · rw [kept.said.2, valueP, itemNew, valueNew]

/-- The value that `do_store_item` stores. -/
def Stores (s : Cache) (it : Nat) (comm : StoreCmd) (v : Value) : Prop :=
  comm ≠ .append ∧ comm ≠ .prepend ∧ v = (s.item it).value ∨
    ∃ old, (s.item old).linked = true ∧ (s.item old).key = (s.item it).key ∧
      v = comm.result (some (s.item old).value) (s.item it).value

/-- A `cas` takes the place of an item with its cas id. -/
def Swaps (s : Cache) (it : Nat) (comm : StoreCmd) : Prop :=
  comm = .cas → ∃ old, (s.item old).linked = true ∧ (s.item old).key = (s.item it).key ∧
    (s.item it).getCas = (s.item old).getCas

/-- `do_store_item` ends; what it stores is in the cache then, and otherwise nothing new is. -/
theorem Sound.store (h : Sound g s q stored (it :: own) []) (comm : StoreCmd)
    (trylock : Nat → Bool) (page : Nat → Option Nat) (unheld : it ∉ own)
    (unlinked : (s.item it).linked = false) (out : ¬ s.assoc.thread.Expands)
    (few : ∀ p, own.count p < 65530) (now : 0 < s.currentTime) (norepair : g.tailRepairTime = 0)
    (pages : ∀ id < g.powerLargest + 1, ∀ ptr ∈ page id, PageOk g s.slabList id ptr) :
    ∃ t r q' stored',
      s.doStoreItem g it comm (g.hash (s.item it).key) trylock page = some (t, r) ∧
      Sound g t q' stored' (it :: own) [] ∧
      (r ≠ .stored ∧ Effect own [] s t ∨
        r = .stored ∧ Swaps s it comm ∧
          ∃ v, Puts g own s t (s.item it).key v ∧ Stores s it comm v) := by
  have count : ∀ p, (it :: own).count p < 65531 := fun p => by
    have := few p
    rw [List.count_cons]
    split <;> omega
  obtain ⟨m, old, ran, none_ | some_⟩ :=
    h.get out (s.item it).key fun p => by have := count p; omega
  · obtain ⟨rfl, ⟨q', stored', sound⟩, ⟨off, kept, -⟩, absent⟩ := none_
    have unlinked' := kept.unlinked unlinked
    rw [doStoreItem, ran, Option.bind_eq_bind, Option.bind_some]
    dsimp only
    rw [if_pos rfl]
    by_cases needs : comm = .replace ∨ comm = .append ∨ comm = .prepend
    · rw [if_pos needs]
      exact ⟨m, .notStored, q', stored', rfl, sound, .inl ⟨by decide, kept.effect⟩⟩
    · rw [if_neg needs]
      by_cases cas : comm = .cas
      · rw [if_pos cas]
        exact ⟨m, .notFound, q', stored', rfl, sound, .inl ⟨by decide, kept.effect⟩⟩
      · rw [if_neg cas]
        push Not at needs
        obtain ⟨t, q'', ran', sound', put⟩ := sound.link unlinked'
          (by rw [kept.thread]; exact out) (by rw [kept.said.1]; exact absent)
          (by rw [List.count_eq_zero.mpr unheld]; decide) (by rw [kept.currentTime]; exact now)
        rw [kept.said.1] at ran'
        refine ⟨t, .stored, q'', _, by rw [ran']; rfl, sound', .inr ⟨rfl,
          fun same => absurd same cas, (s.item it).value,
          ⟨it, unheld, kept.effect.trans put.effect, put.linked, ?_, ?_,
            put.young.within (Nat.le_of_eq kept.casId.symm) (.refl t)⟩,
          .inl ⟨needs.2.1, needs.2.2, rfl⟩⟩⟩
        · exact put.said.1.trans kept.said.1
        · exact put.said.2.trans kept.said.2
  · obtain ⟨found, sound, kept, linked, key, -⟩ := some_
    have linked' : (m.item old).linked = true := (kept.linked old).mpr ⟨linked, List.not_mem_nil⟩
    have unlinked' := kept.unlinked unlinked
    have key' : (m.item old).key = (m.item it).key := by rw [kept.said.1, kept.said.1, key]
    have out' : ¬ m.assoc.thread.Expands := by rwa [kept.thread]
    have now' : 0 < m.currentTime := by rwa [kept.currentTime]
    rw [doStoreItem, ran, Option.bind_eq_bind, Option.bind_some]
    dsimp only
    rw [if_neg found]
    by_cases add : comm = .add
    · rw [if_pos add]
      obtain ⟨t, q', fresh, ran', sound', -, -, -, kept'⟩ := sound.refresh (p := old) now'
      obtain ⟨u, q'', removed, sound'', -, kept''⟩ := sound'.remove
      refine ⟨u, .notStored, q'', stored, ?_, sound'',
        .inl ⟨by decide, (kept.effect.trans kept'.effect).trans kept''.effect⟩⟩
      rw [ran', Option.bind_eq_bind, Option.bind_some, removed]
      rfl
    · rw [if_neg add]
      by_cases joins : comm = .append ∨ comm = .prepend
      · rw [if_pos joins]
        obtain ⟨t, r, q', stored', ran', sound', after⟩ := sound.storeJoined comm trylock page joins
          linked' key' out' (fun p => by
            have := count p
            rw [List.count_cons]
            split <;> omega) now' norepair (by rw [kept.slabList]; exact pages)
        rw [kept.said.1] at ran' after
        refine ⟨t, r, q', stored', ran', sound', ?_⟩
        rcases after with ⟨other, effect⟩ | ⟨same, p, off, effect, there, keyP, valueP, young⟩
        · exact .inl ⟨other, kept.effect.trans effect⟩
        · refine .inr ⟨same, fun cas => absurd (cas ▸ joins) (by decide), _,
            ⟨p, off, kept.effect.trans effect, there, keyP, valueP,
              young.within (Nat.le_of_eq kept.casId.symm) (.refl t)⟩,
            .inr ⟨old, linked, key, ?_⟩⟩
          rw [kept.said.2, kept.said.2]
      · rw [if_neg joins]
        by_cases differs : comm = .cas ∧ (m.item it).getCas ≠ (m.item old).getCas
        · rw [if_pos differs]
          obtain ⟨t, q', removed, sound', -, kept'⟩ := sound.remove
          refine ⟨t, .exists_, q', stored, ?_, sound',
            .inl ⟨by decide, kept.effect.trans kept'.effect⟩⟩
          rw [removed]
          rfl
        · rw [if_neg differs]
          push Not at joins
          obtain ⟨t, q', stored', ran', sound', p, off, effect, there, keyP, valueP, young⟩ :=
            (sound.perm (.swap it old own)).replaceOld linked' unlinked' key' unheld out' now'
          rw [kept.said.1] at ran' keyP
          rw [kept.said.2] at valueP
          rw [kept.content, kept.content] at differs
          refine ⟨t, .stored, q', stored', ?_, sound', .inr ⟨rfl, fun cas => ⟨old, linked, key,
            not_not.mp fun differ => differs ⟨cas, differ⟩⟩, (s.item it).value,
            ⟨p, off, kept.effect.trans effect, there, keyP, valueP,
              young.within (Nat.le_of_eq kept.casId.symm) (.refl t)⟩,
            .inl ⟨joins.1, joins.2, rfl⟩⟩⟩
          rw [ran']
          rfl

end Effect

end Cache

/-! ## The connections -/

/-- The cache and the items that connections hold: in `c->item`, with `c->cmd`, while their data
are read, and in `c->ilist` until they are sent. -/
structure Server where
  cache : Cache
  reading : List (Nat × StoreCmd)
  writing : List Nat

/-- What a connection gets. -/
inductive Reply
  | none
  | reading (it : Nat)
  | outOfMemory
  | badDataChunk
  | store (r : StoreItemType)
  | miss
  | hit (it : Nat)
  deriving DecidableEq

/-- What can happen. `trylock` and `page` are the answers of `item_trylock` and
`memory_allocate`, and a `flush` has the time that `realtime` makes of its argument. -/
inductive Event
  | update (key : List UInt8) (flags : Int) (exptime nbytes : Nat) (comm : StoreCmd) (cas : Nat)
      (trylock : Nat → Bool) (page : Nat → Option Nat)
  | complete (it : Nat) (comm : StoreCmd) (data : List UInt8) (trylock : Nat → Bool)
      (page : Nat → Option Nat)
  | abort (it : Nat) (comm : StoreCmd)
  | get (key : List UInt8)
  | release (it : Nat)
  | flushAll (delayed : Option Nat)
  | tick (now : Nat)
  | maintain (calloced : Bool)

/-- The events that need `cache_lock`. -/
def Event.locks : Event → Bool
  | .tick _ | .maintain _ => false
  | _ => true

namespace Server

variable (g : Settings)

/-- `process_update_command`, when the command line is read. -/
def processUpdateCommand (s : Server) (key : List UInt8) (flags : Int) (exptime nbytes : Nat)
    (comm : StoreCmd) (cas : Nat) (trylock : Nat → Bool) (page : Nat → Option Nat) :
    Option (Server × Reply) := do
  let hv := g.hash key
  let (c, it) ← s.cache.doItemAlloc g key flags exptime nbytes hv trylock page
  if it ≠ 0 then
    return ({ s with cache := c.set it (·.setCas cas), reading := (it, comm) :: s.reading },
      .reading it)
  else if comm = .set then
    -- the old value must not stay when the new one has no place
    let (c, old) ← c.doItemGet g key hv
    if old = 0 then return ({ s with cache := c }, .outOfMemory)
    else
      let c ← c.doItemUnlink g old hv
      let c ← c.doItemRemove g old
      return ({ s with cache := c }, .outOfMemory)
  else return ({ s with cache := c }, .outOfMemory)

/-- The item of `complete_nread_ascii` is stored, if its data end as they should. -/
def storeData (c : Cache) (it : Nat) (comm : StoreCmd) (trylock : Nat → Bool)
    (page : Nat → Option Nat) : Option (Cache × Reply) :=
  if (c.item it).data.drop ((c.item it).nbytes - 2) ≠ [13, 10] then some (c, .badDataChunk)
  else do
    let (c, r) ← c.doStoreItem g it comm (g.hash (c.item it).key) trylock page
    return (c, .store r)

/-- `complete_nread_ascii`, when the data are there. -/
def completeNreadAscii (s : Server) (it : Nat) (comm : StoreCmd) (data : List UInt8)
    (trylock : Nat → Bool) (page : Nat → Option Nat) : Option (Server × Reply) := do
  let c := s.cache.set it fun h => { h with data := data }
  let (c, reply) ← storeData g c it comm trylock page
  let c ← c.doItemRemove g it
  return ({ s with cache := c, reading := s.reading.erase (it, comm) }, reply)

/-- One key of `process_get_command` -/
def processGetCommand (s : Server) (key : List UInt8) : Option (Server × Reply) := do
  let (c, it) ← s.cache.doItemGet g key (g.hash key)
  if it = 0 then return ({ s with cache := c }, .miss)
  else
    let c ← c.doItemUpdate it
    return ({ s with cache := c, writing := it :: s.writing }, .hit it)

/-- `flush_all` -/
def flushAll (s : Server) (delayed : Option Nat) : Option (Server × Reply) := do
  let oldest := (delayed.getD s.cache.currentTime) - 1
  let c ← { s.cache with oldestLive := oldest }.doItemFlushExpired g
  return ({ s with cache := c }, .none)

/-- An event, and what the client is told; a thread that needs `cache_lock` waits for it. -/
def exec (s : Server) (e : Event) : Option (Server × Reply) :=
  if e.locks ∧ s.cache.assoc.thread.Expands then none
  else match e with
    | .update key flags exptime nbytes comm cas trylock page =>
        s.processUpdateCommand g key flags exptime nbytes comm cas trylock page
    | .complete it comm data trylock page => s.completeNreadAscii g it comm data trylock page
    | .abort it comm => do
        let c ← s.cache.doItemRemove g it
        return ({ s with cache := c, reading := s.reading.erase (it, comm) }, .none)
    | .get key => s.processGetCommand g key
    | .release it => do
        let c ← s.cache.doItemRemove g it
        return ({ s with cache := c, writing := s.writing.erase it }, .none)
    | .flushAll delayed => s.flushAll g delayed
    | .tick now => some ({ s with cache := { s.cache with currentTime := now } }, .none)
    | .maintain calloced => do
        let assoc ← s.cache.assoc.assocMaintenanceThread g.hash g.hashBulkMove calloced
        return ({ s with cache := { s.cache with assoc := assoc } }, .none)

def step (s : Server) (e : Event) : Option Server := (s.exec g e).map Prod.fst

/-- The references of the connections. -/
def own (s : Server) : List Nat := s.reading.map Prod.fst ++ s.writing

/-- The answers of `memory_allocate` are pages of their own. -/
def Paged (c : Cache) (page : Nat → Option Nat) : Prop :=
  ∀ id < g.powerLargest + 1, ∀ ptr ∈ page id, Cache.PageOk g c.slabList id ptr

/-- There are fewer references to any item than an `unsigned short` counts. -/
def Few (s : Server) : Prop := ∀ p ∈ s.own, s.own.count p < 65530

/-- What the callers, the clock and the allocator see to: connections name items that they hold,
no item has more references than its counter can take, and a page is of no other one. -/
def Allowed (s : Server) (e : Event) : Prop :=
  match e with
  | .update _ _ _ nbytes _ _ _ page => 2 ≤ nbytes ∧ Paged g s.cache page ∧ Few s
  | .complete it comm data _ page =>
      (it, comm) ∈ s.reading ∧ data.length = (s.cache.item it).nbytes ∧ Paged g s.cache page ∧ Few s
  | .abort it comm => (it, comm) ∈ s.reading
  | .get _ => Few s
  | .release it => it ∈ s.writing
  | .flushAll delayed => ∀ at_ ∈ delayed, 0 < at_
  | .tick now => s.cache.currentTime ≤ now ∧ now < 4294967296
  | .maintain calloced => Assoc.Allowed g.hash s.cache.assoc (.maintain calloced)

instance (c : Cache) (page : Nat → Option Nat) : Decidable (Paged g c page) :=
  inferInstanceAs (Decidable (∀ id < g.powerLargest + 1, ∀ ptr ∈ page id,
    Cache.PageOk g c.slabList id ptr))

instance (s : Server) : Decidable (Few s) :=
  inferInstanceAs (Decidable (∀ p ∈ s.own, s.own.count p < 65530))

instance : ∀ (s : Server) (e : Event), Decidable (s.Allowed g e)
  | s, .update _ _ _ nbytes _ _ _ page =>
      inferInstanceAs (Decidable (2 ≤ nbytes ∧ Paged g s.cache page ∧ Few s))
  | s, .complete it comm data _ page =>
      inferInstanceAs (Decidable ((it, comm) ∈ s.reading ∧
        data.length = (s.cache.item it).nbytes ∧ Paged g s.cache page ∧ Few s))
  | s, .abort it comm => inferInstanceAs (Decidable ((it, comm) ∈ s.reading))
  | s, .get _ => inferInstanceAs (Decidable (Few s))
  | s, .release it => inferInstanceAs (Decidable (it ∈ s.writing))
  | _, .flushAll delayed => inferInstanceAs (Decidable (∀ at_ ∈ delayed, 0 < at_))
  | s, .tick now =>
      inferInstanceAs (Decidable (s.cache.currentTime ≤ now ∧ now < 4294967296))
  | s, .maintain calloced =>
      inferInstanceAs (Decidable (Assoc.Allowed g.hash s.cache.assoc (.maintain calloced)))

end Server

end Shang.Memcached

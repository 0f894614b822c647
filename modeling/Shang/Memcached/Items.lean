import Shang.Memcached.Slabs
import Mathlib.Data.List.Perm.Subperm

/-!
# The items of memcached
-/

namespace Shang.Memcached

open Lib Function

namespace Cache

variable (g : Settings)

/-! ## The program -/

/-- `refcount_incr`, on an `unsigned short` -/
def refcountIncr (s : Cache) (it : Nat) : Cache :=
  s.set it fun it => { it with refcount := (it.refcount + 1) % 65536 }

/-- `refcount_decr` -/
def refcountDecr (s : Cache) (it : Nat) : Cache :=
  s.set it fun it => { it with refcount := (it.refcount + 65535) % 65536 }

/-- `item_free` -/
def itemFree (s : Cache) (it : Nat) : Option Cache :=
  let clsid := (s.item it).slabsClsid
  if (s.item it).linked ∨ it = s.heads clsid ∨ it = s.tails clsid ∨ (s.item it).refcount ≠ 0 then
    none
  else (s.set it fun it => { it with slabsClsid := 0 }).doSlabsFree g it clsid

/-- `do_item_remove` -/
def doItemRemove (s : Cache) (it : Nat) : Option Cache :=
  if (s.item it).slabbed ∨ (s.item it).refcount = 0 then none
  else
    let s := s.refcountDecr it
    if (s.item it).refcount = 0 then s.itemFree g it else some s

/-- The item goes to the front of the LRU list of its class. -/
def pushLru (s : Cache) (it : Nat) : Cache :=
  let c := (s.item it).slabsClsid
  let head := s.heads c
  { s with
    next := update s.next it head
    prev := if head = 0 then update s.prev it 0 else update (update s.prev it 0) head it
    heads := update s.heads c it
    tails := if s.tails c = 0 then update s.tails c it else s.tails }

/-- `item_link_q` -/
def itemLinkQ (s : Cache) (it : Nat) : Option Cache :=
  let c := (s.item it).slabsClsid
  if largestId ≤ c ∨ (s.item it).slabbed ∨ it = s.heads c ∨ ¬ (s.heads c = 0 ↔ s.tails c = 0) then
    none
  else some (s.pushLru it)

/-- The item is taken off the LRU list of its class. -/
def popLru (s : Cache) (it : Nat) : Cache :=
  let c := (s.item it).slabsClsid
  let next := s.next it
  let prev := s.prev it
  { s with
    heads := if s.heads c = it then update s.heads c next else s.heads
    tails := if s.tails c = it then update s.tails c prev else s.tails
    prev := if next = 0 then s.prev else update s.prev next prev
    next := if prev = 0 then s.next else update s.next prev next }

/-- `item_unlink_q` -/
def itemUnlinkQ (s : Cache) (it : Nat) : Option Cache :=
  let c := (s.item it).slabsClsid
  if largestId ≤ c ∨ s.heads c = it ∧ s.prev it ≠ 0 ∨ s.tails c = it ∧ s.next it ≠ 0 ∨
      s.next it = it ∨ s.prev it = it then none
  else some (s.popLru it)

/-- The item before `do_item_link` puts it in the hash table; `get_cas_id` counts up. -/
def markLinked (s : Cache) (it : Nat) : Cache :=
  let h : Stritem := { s.item it with linked := true, time := s.currentTime }
  { s with
    item := update s.item it (h.setCas (if g.useCas then s.casId + 1 else 0))
    casId := if g.useCas then s.casId + 1 else s.casId }

/-- `do_item_link`; `hv` is the hash value of the key. -/
def doItemLink (s : Cache) (it : Nat) (hv : UInt32) : Option Cache :=
  if (s.item it).linked ∨ (s.item it).slabbed then none
  else do
    let s := s.markLinked g it
    let assoc ← s.assoc.assocInsert ⟨(s.item it).key, it⟩ hv
    let s ← itemLinkQ { s with assoc := assoc } it
    return s.refcountIncr it

/-- `do_item_unlink`, up to the call of `do_item_remove` -/
def unlinkItem (s : Cache) (it : Nat) (hv : UInt32) : Option Cache := do
  let s := s.set it fun it => { it with linked := false }
  let assoc ← s.assoc.assocDelete (s.item it).key hv
  itemUnlinkQ { s with assoc := assoc } it

/-- `do_item_unlink` -/
def doItemUnlink (s : Cache) (it : Nat) (hv : UInt32) : Option Cache :=
  if (s.item it).linked then do
    let s ← s.unlinkItem it hv
    s.doItemRemove g it
  else some s

/-- `ITEM_UPDATE_INTERVAL` -/
def itemUpdateInterval : Nat := 60

/-- `do_item_update`; the difference of the times is an `unsigned int`. -/
def doItemUpdate (s : Cache) (it : Nat) : Option Cache :=
  if (s.item it).time < (s.currentTime + 4294967296 - itemUpdateInterval) % 4294967296 then
    if (s.item it).linked then do
      let s ← s.itemUnlinkQ it
      let s := s.set it fun it => { it with time := s.currentTime }
      s.itemLinkQ it
    else some s
  else some s

/-- `do_item_replace` -/
def doItemReplace (s : Cache) (it newIt : Nat) (hv : UInt32) : Option Cache :=
  if (s.item it).slabbed then none
  else do
    let s ← s.doItemUnlink g it hv
    s.doItemLink g newIt hv

/-- The item is from before the last `flush_all`. -/
def flushed (s : Cache) (it : Stritem) : Bool :=
  s.oldestLive ≠ 0 ∧ s.oldestLive ≤ s.currentTime ∧ it.time ≤ s.oldestLive

/-- The item is past its time. -/
def expired (s : Cache) (it : Stritem) : Bool :=
  it.exptime ≠ 0 ∧ it.exptime ≤ s.currentTime

/-- `do_item_get` does not hand the item out any more. -/
def dead (s : Cache) (it : Stritem) : Bool := s.flushed it || s.expired it

/-- `do_item_get`; 0 is the null pointer. -/
def doItemGet (s : Cache) (key : List UInt8) (hv : UInt32) : Option (Cache × Nat) := do
  match ← s.assoc.assocFind key hv with
  | none => return (s, 0)
  | some found =>
      let it := found.addr
      let s := s.refcountIncr it
      if s.dead (s.item it) then
        let s ← s.doItemUnlink g it hv
        let s ← s.doItemRemove g it
        return (s, 0)
      else return (s.set it fun it => { it with fetched := true }, it)

/-! ### do_item_flush_expired -/

/-- The inner loop of `do_item_flush_expired`, from `iter` on; 0 is no more fuel. -/
def flushFrom : Nat → Nat → Cache → Option Cache
  | 0, _, _ => none
  | fuel + 1, iter, s =>
      if iter = 0 then some s
      else if (s.item iter).time ≠ 0 ∧ s.oldestLive ≤ (s.item iter).time then
        let nxt := s.next iter
        if (s.item iter).slabbed then flushFrom fuel nxt s
        else (s.doItemUnlink g iter (g.hash (s.item iter).key)).bind (flushFrom fuel nxt)
      else some s

/-- `do_item_flush_expired`; no list is longer than there are chunks of its class. -/
def doItemFlushExpired (s : Cache) : Option Cache :=
  if s.oldestLive = 0 then some s
  else (List.range largestId).foldlM
    (fun s i => flushFrom g ((s.slabList i).length * g.perslab i + 1) (s.heads i) s) s

/-! ## References -/

section Sound

variable {g} {s t : Cache} {q q' : Place → List Nat} {stored : List Item} {own own' : List Nat}
  {loose loose' : List Nat} {c d p r : Nat} {f : Stritem → Stritem}

@[simp] theorem set_item_self : (s.set p f).item p = f (s.item p) := update_self _ _ _

theorem set_item_of_ne (other : r ≠ p) : (s.set p f).item r = s.item r := update_of_ne other _ _

/-- What is kept of every item is kept of the one that is written. -/
theorem set_item_of_eq {α : Type} (v : Stritem → α) (same : v (f (s.item p)) = v (s.item p)) :
    v ((s.set p f).item r) = v (s.item r) := apply_update_of_eq v same

/-- One item is written, and nobody sees it but by its references. -/
theorem Sound.set (h : Sound g s q stored own loose) (own' : List Nat)
    (ok : ItemOk g s.slabList s.currentTime q own' p (f (s.item p)))
    (others : ∀ r ≠ p, own'.count r = own.count r)
    (linked : (f (s.item p)).linked = (s.item p).linked)
    (key : (f (s.item p)).key = (s.item p).key) (time : (f (s.item p)).time = (s.item p).time)
    (sub : loose ⊆ loose') (covered : p ∈ own → (s.item p).linked = true ∨ p ∈ own' ∨ p ∈ loose') :
    Sound g (s.set p f) q stored own' loose' where
  queues := h.queues
  tails := h.tails
  count := h.count
  items r := by
    rcases eq_or_ne r p with rfl | other
    · rw [set_item_self]
      exact ok
    · rw [set_item_of_ne other]
      exact (h.items r).congr (fun _ => Iff.rfl) (others r other)
  sorted c := (h.sorted c).imp fun {a b} le => by
    rw [set_item_of_eq (·.time) time, set_item_of_eq (·.time) time]
    exact le
  assoc := h.assoc
  table it := by
    rw [h.table, set_item_of_eq (·.linked) linked, set_item_of_eq (·.key) key]
  chunks c r chunk := by
    rw [set_item_of_eq (·.linked) linked]
    rcases h.chunks c r chunk with free | there | held | transit
    · exact .inl free
    · exact .inr (.inl there)
    · rcases eq_or_ne r p with rfl | other
      · exact .inr (covered held)
      · rw [← List.count_pos_iff, ← others r other, List.count_pos_iff] at held
        exact .inr (.inr (.inl held))
    · exact .inr (.inr (.inr (sub transit)))
  pages := h.pages

theorem Sound.perm (h : Sound g s q stored own loose) (perm : own.Perm own') :
    Sound g s q stored own' loose where
  queues := h.queues
  tails := h.tails
  count := h.count
  items r := (h.items r).congr (fun _ => Iff.rfl) (perm.count_eq r).symm
  sorted := h.sorted
  assoc := h.assoc
  table := h.table
  chunks c r chunk := by
    rw [← perm.mem_iff]
    exact h.chunks c r chunk
  pages := h.pages

/-- A reference is counted. -/
theorem Sound.incr (h : Sound g s q stored own loose) (used : (s.item p).linked = true ∨ p ∈ own)
    (few : own.count p + 2 < 65536) :
    Sound g (s.refcountIncr p) q stored (p :: own) loose := by
  have ok := h.items p
  have few : (s.item p).refcount + 1 < 65536 := by
    have := Bool.toNat_le (s.item p).linked
    rw [ok.refs]
    omega
  refine h.set (p :: own) ⟨fun c mem => ?_, ok.slabbed, ok.lru, fun _ => ?_, ?_, ?_, ok.time⟩
    (fun r other => List.count_cons_of_ne other.symm) rfl rfl rfl (List.Subset.refl _)
    fun held => .inr (.inl (List.mem_cons_of_mem p held))
  · obtain ⟨_, _, _, unlinked, unheld⟩ := ok.free c mem
    exact (used.elim (by simp [unlinked]) unheld).elim
  · exact (ok.used used).congr rfl rfl rfl
  · change ((s.item p).refcount + 1) % 65536 = _
    rw [Nat.mod_eq_of_lt few, ok.refs, List.count_cons_self]
    exact Nat.add_right_comm _ _ _
  · exact Nat.mod_lt _ (by decide)

/-- A reference is given up, and it is not the last one. -/
theorem Sound.decr (h : Sound g s q stored (p :: own) loose)
    (used : (s.item p).linked = true ∨ p ∈ own) :
    Sound g (s.refcountDecr p) q stored own loose := by
  have ok := h.items p
  refine h.set own ⟨fun c mem => ?_, ok.slabbed, ok.lru, fun _ => ?_, ?_, ?_, ok.time⟩
    (fun r other => (List.count_cons_of_ne other.symm).symm) rfl rfl rfl (List.Subset.refl _)
    fun _ => used.elim .inl fun held => .inr (.inl held)
  · obtain ⟨_, _, _, _, unheld⟩ := ok.free c mem
    exact absurd List.mem_cons_self unheld
  · exact (ok.used (.inr List.mem_cons_self)).congr rfl rfl rfl
  · have small := ok.small
    dsimp only
    rw [ok.refs, List.count_cons_self] at small ⊢
    omega
  · exact Nat.mod_lt _ (by decide)

/-- What an operation leaves of the items: those of `off` are no longer in the cache, and those
of `fresh` have the time of now. -/
structure Kept (off fresh : List Nat) (s t : Cache) : Prop where
  content : ∀ r, (t.item r).toContent = (s.item r).toContent
  linked : ∀ r, (t.item r).linked = true ↔ (s.item r).linked = true ∧ r ∉ off
  time : ∀ r ∉ fresh, (t.item r).time = (s.item r).time
  fresh : ∀ r ∈ fresh, (t.item r).time = s.currentTime
  slabList : t.slabList = s.slabList
  memMalloced : t.memMalloced = s.memMalloced
  thread : t.assoc.thread = s.assoc.thread
  casId : t.casId = s.casId
  currentTime : t.currentTime = s.currentTime
  oldestLive : t.oldestLive = s.oldestLive

theorem Kept.refl (s : Cache) : Kept [] [] s s :=
  ⟨fun _ => rfl, by simp, fun _ _ => rfl, by simp, rfl, rfl, rfl, rfl, rfl, rfl⟩

theorem Kept.trans {u : Cache} {off off' fresh fresh' : List Nat} (first : Kept off fresh s t)
    (rest : Kept off' fresh' t u) : Kept (off ++ off') (fresh ++ fresh') s u where
  content r := (rest.content r).trans (first.content r)
  linked r := by rw [rest.linked, first.linked, List.mem_append, not_or, and_assoc]
  time r out := by
    rw [List.mem_append, not_or] at out
    exact (rest.time r out.2).trans (first.time r out.1)
  fresh r mem := by
    by_cases again : r ∈ fresh'
    · rw [rest.fresh r again, first.currentTime]
    · rw [rest.time r again]
      exact first.fresh r ((List.mem_append.mp mem).resolve_right again)
  slabList := rest.slabList.trans first.slabList
  memMalloced := rest.memMalloced.trans first.memMalloced
  thread := rest.thread.trans first.thread
  casId := rest.casId.trans first.casId
  currentTime := rest.currentTime.trans first.currentTime
  oldestLive := rest.oldestLive.trans first.oldestLive

theorem Kept.unlinked {off fresh : List Nat} (kept : Kept off fresh s t)
    (unlinked : (s.item p).linked = false) : (t.item p).linked = false := by
  rw [Bool.eq_false_iff] at unlinked ⊢
  exact fun there => unlinked ((kept.linked p).mp there).1

theorem Kept.set (content : (f (s.item p)).toContent = (s.item p).toContent)
    (linked : (f (s.item p)).linked = (s.item p).linked)
    (time : (f (s.item p)).time = (s.item p).time) : Kept [] [] s (s.set p f) where
  content _ := set_item_of_eq (·.toContent) content
  linked r := by
    rw [set_item_of_eq (·.linked) linked]
    simp
  time _ _ := set_item_of_eq (·.time) time
  fresh := by simp
  slabList := rfl
  memMalloced := rfl
  thread := rfl
  casId := rfl
  currentTime := rfl
  oldestLive := rfl

theorem Kept.incr : Kept [] [] s (s.refcountIncr p) := .set rfl rfl rfl

theorem Kept.decr : Kept [] [] s (s.refcountDecr p) := .set rfl rfl rfl

theorem Kept.pushSlot : Kept [] [] s (s.pushSlot p c) :=
  have k : Kept [] [] s (s.set p fun it => { it with slabbed := true }) := .set rfl rfl rfl
  ⟨k.content, k.linked, k.time, k.fresh, rfl, rfl, rfl, rfl, rfl, rfl⟩

/-- An item that is in no list is at no end of one. -/
theorem Sound.ends (h : Sound g s q stored own loose) (off : p ∉ q (.lru c)) (some : p ≠ 0) :
    p ≠ s.heads c ∧ p ≠ s.tails c := by
  constructor
  · rintro rfl
    have first : s.heads c = (q (.lru c)).headD 0 := h.queues.first (.lru c)
    cases list : q (.lru c) with
    | nil => exact some (by rw [first, list]; rfl)
    | cons a l =>
        rw [first, list] at off
        exact off List.mem_cons_self
  · rintro rfl
    obtain ⟨l, last⟩ := exists_getLastD 0 (q (.lru c))
    have mem : s.tails c ∈ 0 :: q (.lru c) := by
      rw [last, h.tails]
      exact List.mem_append_right _ (List.mem_singleton.mpr rfl)
    exact (List.mem_cons.mp mem).elim some off

/-- The last reference is given up; the item is in no list. -/
theorem Sound.drop (h : Sound g s q stored (p :: own) loose)
    (unlinked : (s.item p).linked = false) (unheld : p ∉ own) :
    let t := (s.refcountDecr p).set p fun it => { it with slabsClsid := 0 }
    Sound g t q stored own (p :: loose) ∧
      Unused g t.slabList q own (s.item p).slabsClsid p (t.item p) ∧
      (t.item p).refcount = 0 := by
  intro t
  have ok := h.items p
  have inUse := ok.used (.inr List.mem_cons_self)
  have out : ∀ c, p ∉ q (.free c) := fun c mem =>
    (ok.free c mem).2.2.2.2 List.mem_cons_self
  have zero : ((s.item p).refcount + 65535) % 65536 = 0 := by
    rw [ok.refs, unlinked, List.count_cons_self, List.count_eq_zero.mpr unheld]
    rfl
  have both : t = s.set p fun it =>
      { it with refcount := (it.refcount + 65535) % 65536, slabsClsid := 0 } := by
    change Cache.set (Cache.set s p _) p _ = _
    simp [Cache.set]
  have item : ∀ c, p ∉ q (.lru c) := fun c => by simp [ok.lru, unlinked]
  have sound : Sound g t q stored own (p :: loose) := by
    rw [both]
    refine h.set own ⟨fun c mem => absurd mem (out c), fun c mem => absurd mem (out c),
      fun c => ?_, fun used => ?_, ?_, ?_, ?_⟩
      (fun r other => (List.count_cons_of_ne other.symm).symm) rfl rfl rfl
      (List.subset_cons_self p loose) fun _ => .inr (.inr List.mem_cons_self)
    · simp [item, unlinked]
    · exact (used.elim (by simp [unlinked]) unheld).elim
    · dsimp only
      rw [zero, unlinked, List.count_eq_zero.mpr unheld]
      rfl
    · exact Nat.mod_lt _ (by decide)
    · simp [unlinked]
  have item' : t.item p = { s.item p with
      refcount := ((s.item p).refcount + 65535) % 65536, slabsClsid := 0 } := by
    rw [both, set_item_self]
  refine ⟨sound, ?_, by rw [item', zero]⟩
  rw [item']
  exact ⟨fun i => by cases i with | free c => exact out c | lru c => exact item c,
    unlinked, unheld, rfl, inUse.isClass, inUse.chunk⟩

/-- `do_item_remove` gives up a reference, and with the last one the chunk. -/
theorem Sound.remove (h : Sound g s q stored (p :: own) loose) :
    ∃ t q', s.doItemRemove g p = some t ∧ Sound g t q' stored own loose ∧
      (∀ c, q' (.lru c) = q (.lru c)) ∧ Kept [] [] s t := by
  have ok := h.items p
  have inUse := ok.used (.inr List.mem_cons_self)
  have some_ : (s.item p).refcount ≠ 0 := by
    rw [ok.refs, List.count_cons_self]
    omega
  rw [doItemRemove, if_neg (by simp [inUse.slabbed, some_])]
  by_cases used : (s.item p).linked = true ∨ p ∈ own
  · have sound := h.decr used
    refine ⟨_, q, if_neg ?_, sound, fun _ => rfl, .decr⟩
    rw [(sound.items p).refs]
    rcases used with linked | held
    · rw [show ((s.refcountDecr p).item p).linked = true by
        rw [refcountDecr, set_item_self]; exact linked]
      exact Nat.succ_ne_zero _
    · have := List.count_pos_iff.mpr held
      omega
  · obtain ⟨unlinked, unheld⟩ := not_or.mp used
    rw [Bool.not_eq_true] at unlinked
    obtain ⟨sound, unused, zero⟩ := h.drop unlinked unheld
    have same : ((s.refcountDecr p).item p).slabsClsid = (s.item p).slabsClsid :=
      set_item_of_eq (·.slabsClsid) rfl
    have linked : ((s.refcountDecr p).item p).linked = false :=
      (set_item_of_eq (·.linked) rfl).trans unlinked
    have zero : ((s.refcountDecr p).item p).refcount = 0 := by
      rw [set_item_self] at zero
      exact zero
    obtain ⟨notHead, notTail⟩ := sound.ends (c := (s.item p).slabsClsid)
      (unused.off _) (unused.ne_zero sound.pages)
    refine ⟨_, _, ?_, sound.pushSlot unused, fun c => update_of_ne (by simp) _ _,
      (Kept.decr.trans (.set rfl rfl rfl)).trans .pushSlot⟩
    rw [if_pos zero, itemFree, if_neg, same, unused.doSlabsFree]
    rw [same, linked, zero]
    rintro (absurd_ | head | tail | absurd_)
    · cases absurd_
    · exact notHead head
    · exact notTail tail
    · exact absurd_ rfl

/-! ## The LRU lists -/

/-- The lists, and the last items of the LRU lists. -/
def Listed (s : Cache) (q : Place → List Nat) : Prop :=
  Queues s.next s.prev 0 (firsts s.slots s.heads) q ∧ ∀ c, s.tails c = (q (.lru c)).getLastD 0

theorem Sound.listed (h : Sound g s q stored own loose) : Listed s q := ⟨h.queues, h.tails⟩

theorem Listed.heads_eq_zero (h : Listed s q) : s.heads c = 0 ↔ q (.lru c) = [] :=
  h.1.first_eq_null (i := Place.lru c)

theorem Listed.tails_eq_zero (h : Listed s q) : s.tails c = 0 ↔ q (.lru c) = [] := by
  rw [h.2]
  rcases List.eq_nil_or_concat (q (.lru c)) with list | ⟨l, a, list⟩
  · simp [list]
  · have some : a ≠ 0 := h.1.ne_null (i := Place.lru c) (by simp [list])
    simp [list, some]

theorem Listed.push (h : Listed s q) (off : ∀ i, p ∉ q i) (some : p ≠ 0)
    (own : (s.item p).slabsClsid = c) :
    Listed (s.pushLru p) (update q (.lru c) (p :: q (.lru c))) := by
  constructor
  · have pushed := h.1.push (.lru c) off some
    rw [← firsts_update_lru] at pushed
    rw [pushLru, own]
    exact pushed
  · intro d
    rw [pushLru, own]
    dsimp only
    rcases eq_or_ne d c with rfl | other
    · rw [update_self, List.getLastD_cons]
      by_cases empty : s.tails d = 0
      · rw [if_pos empty, update_self, h.tails_eq_zero.mp empty]
        rfl
      · rw [if_neg empty, h.2]
        cases list : q (.lru d) with
        | nil => exact absurd (h.tails_eq_zero.mpr list) empty
        | cons a l => rw [List.getLastD_cons, List.getLastD_cons]
    · rw [update_of_ne (by simpa using other), ← h.2]
      split
      · exact update_of_ne other _ _
      · rfl

theorem Listed.pop (h : Listed s q) (mem : p ∈ q (.lru c)) (own : (s.item p).slabsClsid = c) :
    Listed (s.popLru p) (update q (.lru c) ((q (.lru c)).erase p)) := by
  constructor
  · have popped := h.1.remove mem
    have first : firsts s.slots s.heads (.lru c) = s.heads c := rfl
    rw [first, ← firsts_update_lru, ← apply_ite (firsts s.slots)] at popped
    rw [popLru, own]
    exact popped
  · intro d
    rw [popLru, own]
    dsimp only
    rcases eq_or_ne d c with rfl | other
    · rw [update_self, h.1.last_erase mem, ← h.2]
      split
      · exact update_self _ _ _
      · rfl
    · rw [update_of_ne (by simpa using other), ← h.2]
      split
      · exact update_of_ne other _ _
      · rfl

/-- No assertion of `item_link_q` fails for an item that is in no list. -/
theorem Listed.linkQ (h : Listed s q) (off : ∀ i, p ∉ q i) (some_ : p ≠ 0)
    (slabbed : (s.item p).slabbed = false) (isClass : IsClass g (s.item p).slabsClsid) :
    s.itemLinkQ p = some (s.pushLru p) := by
  refine if_neg ?_
  rintro (large | bad | head | ends)
  · have le := isClass.2
    have lt := g.power_lt
    rw [largestId] at large
    omega
  · simp [slabbed] at bad
  · have first : s.heads (s.item p).slabsClsid = (q (.lru (s.item p).slabsClsid)).headD 0 :=
      h.1.first (.lru _)
    have out := off (.lru (s.item p).slabsClsid)
    cases list : q (.lru (s.item p).slabsClsid) with
    | nil => exact some_ (by rw [head, first, list]; rfl)
    | cons a l =>
        rw [list] at first out
        exact out (by rw [head, first]; exact List.mem_cons_self)
  · exact ends (h.heads_eq_zero.trans h.tails_eq_zero.symm)

/-- No assertion of `item_unlink_q` fails for an item of its list. -/
theorem Listed.unlinkQ (h : Listed s q) (mem : p ∈ q (.lru (s.item p).slabsClsid))
    (isClass : IsClass g (s.item p).slabsClsid) : s.itemUnlinkQ p = some (s.popLru p) := by
  obtain ⟨l₁, l₂, list, -, back, forth, front, last⟩ := h.1.around mem
  have nodup := h.1.nodup (.lru (s.item p).slabsClsid)
  have some_ := h.1.ne_null mem
  have first : s.heads (s.item p).slabsClsid = (q (.lru (s.item p).slabsClsid)).headD 0 :=
    h.1.first (.lru _)
  have end_ := h.2 (s.item p).slabsClsid
  rw [list] at nodup first end_
  obtain ⟨-, nodup₂, apart⟩ := List.nodup_append'.mp nodup
  have off₁ : p ∉ l₁ := fun there => apart there List.mem_cons_self
  have off₂ := (List.nodup_cons.mp nodup₂).1
  have lastMem {b : Nat} {l : List Nat} (off : p ∉ b :: l) : l.getLastD b ≠ p := by
    obtain ⟨l', same⟩ := exists_getLastD b l
    refine ne_of_mem_of_not_mem ?_ off
    rw [same]
    exact List.mem_append_right _ (List.mem_singleton.mpr rfl)
  refine if_neg ?_
  rintro (large | ⟨head, more⟩ | ⟨tail, more⟩ | loop | loop)
  · have le := isClass.2
    have lt := g.power_lt
    rw [largestId] at large
    omega
  · refine more (front.mpr ?_)
    cases l₁ with
    | nil => rfl
    | cons a l =>
        rw [head] at first
        exact absurd (List.mem_cons.mpr (.inl first)) off₁
  · refine more (last.mpr ?_)
    cases l₂ with
    | nil => rfl
    | cons a l =>
        rw [getLastD_append_cons, List.getLastD_cons] at end_
        exact absurd (end_.symm.trans tail) (lastMem off₂)
  · rw [forth] at loop
    cases l₂ with
    | nil => exact some_ loop.symm
    | cons a l => exact off₂ (List.mem_cons.mpr (.inl loop.symm))
  · rw [back] at loop
    exact lastMem (by simp [off₁, some_]) loop

/-! ## The operations -/

/-- An item in use is on no free list. -/
theorem ItemOk.not_free (ok : ItemOk g s.slabList s.currentTime q own p (s.item p))
    (used : (s.item p).linked = true ∨ p ∈ own) (c : Nat) : p ∉ q (.free c) := fun mem => by
  obtain ⟨_, _, _, unlinked, unheld⟩ := ok.free c mem
  exact used.elim (by simp [unlinked]) unheld

theorem Sound.ne_zero (h : Sound g s q stored own loose)
    (used : (s.item p).linked = true ∨ p ∈ own) : p ≠ 0 :=
  Nat.pos_iff_ne_zero.mp (((h.items p).used used).chunk.pos h.pages)

/-- What `do_item_link` does to the items. -/
structure Linked (g : Settings) (p : Nat) (s t : Cache) : Prop where
  others : ∀ r ≠ p, t.item r = s.item r
  content : (t.item p).toContent =
    if g.useCas then { (s.item p).toContent with cas := s.casId + 1 } else (s.item p).toContent
  linked : (t.item p).linked = true
  time : (t.item p).time = s.currentTime
  casId : t.casId = if g.useCas then s.casId + 1 else s.casId
  slabList : t.slabList = s.slabList
  thread : t.assoc.thread = s.assoc.thread
  currentTime : t.currentTime = s.currentTime
  oldestLive : t.oldestLive = s.oldestLive

theorem markLinked_eq (isCas : (s.item p).isCas = g.useCas) :
    s.markLinked g p = { s with
      item := update s.item p { s.item p with
        linked := true
        time := s.currentTime
        cas := if g.useCas then s.casId + 1 else (s.item p).cas }
      casId := if g.useCas then s.casId + 1 else s.casId } := by
  rw [markLinked, Stritem.setCas]
  split
  · next here =>
    have used : g.useCas = true := isCas.symm.trans here
    rw [if_pos used, if_pos used, if_pos used]
  · next here =>
    have unused : ¬ g.useCas = true := fun used => here (isCas.trans used)
    rw [if_neg unused, if_neg unused]

/-- The cache's reference to an item takes the place of one that was held. -/
theorem Sound.linkItem (h : Sound g s q stored (p :: own) loose)
    (unlinked : (s.item p).linked = false) (now : 0 < s.currentTime) {m : Stritem} {a : Assoc}
    {n : Nat} (linked : m.linked = true) (time : m.time = s.currentTime)
    (refs : m.refcount = (s.item p).refcount) (clsid : m.slabsClsid = c)
    (inUse : InUse g s.slabList p m) (inv : a.Inv g.hash (⟨m.key, p⟩ :: stored)) :
    let v : Cache := { s with item := update s.item p m, assoc := a, casId := n }
    v.itemLinkQ p = some (v.pushLru p) ∧
      Sound g (v.pushLru p) (update q (.lru c) (p :: q (.lru c))) (⟨m.key, p⟩ :: stored) own
        loose := by
  intro v
  have ok := h.items p
  have held : (s.item p).linked = true ∨ p ∈ p :: own := .inr List.mem_cons_self
  have off : ∀ i, p ∉ q i := fun i => by
    cases i with
    | free c => exact ok.not_free held c
    | lru c => simp [ok.lru, unlinked]
  have some_ := h.ne_zero held
  have item : v.item p = m := update_self _ _ _
  have others : ∀ r ≠ p, v.item r = s.item r := fun r other => update_of_ne other _ _
  have listed : Listed v q := h.listed
  have pushed := listed.push off some_ (item ▸ clsid)
  have places : ∀ r ≠ p, ∀ i, r ∈ update q (.lru c) (p :: q (.lru c)) i ↔ r ∈ q i := by
    intro r other i
    rcases eq_or_ne i (.lru c) with rfl | apart
    · simp [other]
    · rw [update_of_ne apart]
  have linkedOf : ∀ r ∈ q (.lru c), r ≠ p ∧ (s.item r).linked = true := fun r mem =>
    ⟨ne_of_mem_of_not_mem mem (off _), (((h.items r).lru c).mp mem).1⟩
  refine ⟨listed.linkQ off some_ (item ▸ inUse.slabbed) (item ▸ inUse.isClass),
    pushed.1, pushed.2, fun d => ?_, fun r => ?_, fun d => ?_, inv, fun it => ?_,
    fun d r chunk => ?_, h.pages⟩
  · rw [update_of_ne (by simp)]
    exact h.count d
  · change ItemOk g s.slabList s.currentTime _ own r (v.item r)
    rcases eq_or_ne r p with rfl | other
    · rw [item]
      refine ⟨fun d mem => ?_, fun d mem => ?_, fun d => ?_, fun _ => inUse, ?_, ?_, fun _ => ?_⟩
      · rw [update_of_ne (by simp)] at mem
        exact absurd mem (off _)
      · rw [update_of_ne (by simp)] at mem
        exact absurd mem (off _)
      · rcases eq_or_ne d c with rfl | apart
        · simp [linked, clsid]
        · rw [update_of_ne (by simpa using apart)]
          simp [off, clsid, apart.symm]
      · rw [refs, ok.refs, unlinked, linked, List.count_cons_self]
        rfl
      · rw [refs]
        exact ok.small
      · exact ⟨time ▸ now, time.le⟩
    · rw [others r other]
      exact (h.items r).congr (places r other) (List.count_cons_of_ne other.symm).symm
  · change (update q (.lru c) (p :: q (.lru c)) (.lru d)).Pairwise
      fun a b => (v.item b).time ≤ (v.item a).time
    rcases eq_or_ne d c with rfl | apart
    · rw [update_self]
      refine List.pairwise_cons.mpr ⟨fun r mem => ?_, ?_⟩
      · obtain ⟨other, there⟩ := linkedOf r mem
        rw [item, others r other, time]
        exact ((h.items r).time there).2
      · refine List.Pairwise.imp_of_mem (fun {a b} left right le => ?_) (h.sorted d)
        rw [others a (linkedOf a left).1, others b (linkedOf b right).1]
        exact le
    · rw [update_of_ne (by simpa using apart)]
      refine List.Pairwise.imp_of_mem (fun {a b} left right le => ?_) (h.sorted d)
      rw [others a (ne_of_mem_of_not_mem left (off _)),
        others b (ne_of_mem_of_not_mem right (off _))]
      exact le
  · change _ ↔ (v.item it.addr).linked = true ∧ (v.item it.addr).key = it.key
    rw [List.mem_cons, h.table]
    by_cases here : it.addr = p
    · rw [here, item, unlinked]
      constructor
      · rintro (rfl | ⟨absurd_, -⟩)
        · exact ⟨linked, rfl⟩
        · cases absurd_
      · intro ⟨_, key⟩
        refine .inl ?_
        rw [key, ← here]
    · rw [others _ here]
      constructor
      · rintro (rfl | there)
        · exact absurd rfl here
        · exact there
      · exact .inr
  · change r ∈ _ ∨ (v.item r).linked = true ∨ r ∈ own ∨ r ∈ loose
    rw [update_of_ne (by simp)]
    rcases eq_or_ne r p with rfl | other
    · rw [item]
      exact .inr (.inl linked)
    · rw [others r other]
      simpa [other] using h.chunks d r chunk

/-- `do_item_link` puts an item in the cache. -/
theorem Sound.link (h : Sound g s q stored (p :: own) loose)
    (unlinked : (s.item p).linked = false) (out : ¬ s.assoc.thread.Expands)
    (fresh : ∀ r, (s.item r).linked = true → (s.item r).key ≠ (s.item p).key)
    (few : own.count p + 2 < 65536) (now : 0 < s.currentTime) :
    ∃ t q', s.doItemLink g p (g.hash (s.item p).key) = some t ∧
      Sound g t q' (⟨(s.item p).key, p⟩ :: stored) (p :: own) loose ∧ Linked g p s t := by
  have inUse := (h.items p).used (.inr List.mem_cons_self)
  have absent : s.assoc.assocFind (⟨(s.item p).key, p⟩ : Item).key
      (g.hash (⟨(s.item p).key, p⟩ : Item).key) = some none := by
    have whole := Assoc.origin_eq out ▸ h.assoc.whole
    rw [whole.find, Option.some.injEq, findKey_eq_none]
    intro it mem
    obtain ⟨linked, own⟩ := (h.table it).mp mem
    exact own ▸ fresh _ linked
  obtain ⟨a, inserted, inv, beside⟩ := h.assoc.insert out absent
  rw [doItemLink, if_neg (by simp [unlinked, inUse.slabbed]), markLinked_eq inUse.isCas]
  generalize marked : ({ s.item p with
    linked := true, time := s.currentTime,
    cas := if g.useCas then s.casId + 1 else (s.item p).cas } : Stritem) = m
  have key : m.key = (s.item p).key := by rw [← marked]
  obtain ⟨linkQ, sound⟩ := h.linkItem (m := m) (a := a) (c := m.slabsClsid)
    (n := if g.useCas then s.casId + 1 else s.casId) unlinked now (by rw [← marked])
    (by rw [← marked]) (by rw [← marked]) rfl (by
      rw [← marked]
      exact ⟨inUse.slabbed, inUse.isClass, inUse.chunk, inUse.fits, inUse.data, inUse.nbytes,
        inUse.isCas⟩) (by rw [key]; exact inv)
  dsimp only
  rw [update_self, key, inserted]
  simp only [Option.bind_eq_bind, Option.bind_some]
  rw [linkQ]
  have linked : m.linked = true := by rw [← marked]
  have content : m.toContent =
      if g.useCas then { (s.item p).toContent with cas := s.casId + 1 }
      else (s.item p).toContent := by
    rw [← marked]
    dsimp only
    split <;> rfl
  have time : m.time = s.currentTime := by rw [← marked]
  generalize pushed : Cache.pushLru _ p = u at sound ⊢
  have here : u.item p = m := by
    rw [← pushed]
    exact update_self _ _ _
  have counted := sound.incr (.inl (here ▸ linked)) few
  rw [key] at counted
  have kept : Kept [] [] u (u.refcountIncr p) := .incr
  refine ⟨u.refcountIncr p, _, rfl, counted, fun r other => ?_, ?_,
    (kept.linked p).mpr ⟨here ▸ linked, List.not_mem_nil⟩, ?_, ?_, ?_, ?_, ?_, ?_⟩
  · rw [refcountIncr, set_item_of_ne other, ← pushed]
    exact update_of_ne other _ _
  · rw [kept.content, here, content]
  · rw [kept.time p List.not_mem_nil, here, time]
  · rw [kept.casId, ← pushed]
    rfl
  · rw [kept.slabList, ← pushed]
    rfl
  · rw [kept.thread, ← pushed]
    exact beside.thread
  · rw [kept.currentTime, ← pushed]
    rfl
  · rw [kept.oldestLive, ← pushed]
    rfl

/-- An item of the cache is on the list of its class, and on no other. -/
theorem Sound.mem_lru (h : Sound g s q stored own loose) (linked : (s.item p).linked = true) :
    p ∈ q (.lru (s.item p).slabsClsid) := ((h.items p).lru _).mpr ⟨linked, rfl⟩

theorem Sound.erase_lru (h : Sound g s q stored own loose) (linked : (s.item p).linked = true)
    (i : Place) :
    update q (.lru (s.item p).slabsClsid) ((q (.lru (s.item p).slabsClsid)).erase p) i =
      (q i).erase p := by
  rcases eq_or_ne i (.lru (s.item p).slabsClsid) with rfl | apart
  · rw [update_self]
  · rw [update_of_ne apart, List.erase_of_not_mem]
    exact fun mem => apart (h.queues.apart mem (h.mem_lru linked))

/-- `do_item_unlink` takes an item out of the cache, and has its reference. -/
theorem Sound.unlinkItem (h : Sound g s q stored own loose) (linked : (s.item p).linked = true)
    (out : ¬ s.assoc.thread.Expands) :
    ∃ t q', s.unlinkItem p (g.hash (s.item p).key) = some t ∧
      Sound g t q' (eraseKey Item.key (s.item p).key stored) (p :: own) loose ∧
      (∀ i, q' i = (q i).erase p) ∧ Kept [p] [] s t := by
  have ok := h.items p
  have inUse := ok.used (.inl linked)
  have there : ∃ it ∈ stored, it.key = (s.item p).key :=
    ⟨⟨(s.item p).key, p⟩, (h.table _).mpr ⟨linked, rfl⟩, rfl⟩
  obtain ⟨a, deleted, inv, beside⟩ := h.assoc.delete out there
  have whole := Assoc.origin_eq out ▸ h.assoc.whole
  generalize here : ({ s.item p with linked := false } : Stritem) = m
  have content : m.toContent = (s.item p).toContent := by rw [← here]
  have clsid : m.slabsClsid = (s.item p).slabsClsid := by rw [← here]
  have unlinked : m.linked = false := by rw [← here]
  have time : m.time = (s.item p).time := by rw [← here]
  have refs : m.refcount = (s.item p).refcount := by rw [← here]
  have slabbed : m.slabbed = (s.item p).slabbed := by rw [← here]
  obtain ⟨v, made⟩ : ∃ v : Cache, v = { s with item := update s.item p m, assoc := a } := ⟨_, rfl⟩
  have item : v.item p = m := by
    rw [made]
    exact update_self _ _ _
  have others : ∀ r ≠ p, v.item r = s.item r := fun r other => by
    rw [made]
    exact update_of_ne other _ _
  have listed : Listed v q := by
    rw [made]
    exact h.listed
  have mem := h.mem_lru linked
  have class_ : (v.item p).slabsClsid = (s.item p).slabsClsid := by rw [item, clsid]
  have popped := listed.pop mem class_
  rw [show update q _ _ = fun i => (q i).erase p from funext (h.erase_lru linked)] at popped
  have places : ∀ r ≠ p, ∀ i, r ∈ (q i).erase p ↔ r ∈ q i := fun r other i =>
    List.mem_erase_of_ne other
  have gone : ∀ i, p ∉ (q i).erase p := fun i => (h.queues.nodup i).not_mem_erase
  have whole_ : (v.popLru p).item = update s.item p m := by
    rw [made]
    rfl
  have linkedOf : ∀ r, ((v.popLru p).item r).linked = true ↔ (s.item r).linked = true ∧ r ≠ p := by
    intro r
    rw [whole_]
    rcases eq_or_ne r p with rfl | other
    · simp [unlinked]
    · simp [other]
  have same {α : Type} (f : Stritem → α) (eq : f m = f (s.item p)) (r : Nat) :
      f ((v.popLru p).item r) = f (s.item r) := by
    rw [whole_]
    exact apply_update_of_eq f eq
  have slabs : (v.popLru p).slabList = s.slabList := by
    rw [made]
    rfl
  have nowSame : (v.popLru p).currentTime = s.currentTime := by
    rw [made]
    rfl
  refine ⟨v.popLru p, fun i => (q i).erase p, ?_, ⟨popped.1, popped.2, fun d => ?_, fun r => ?_,
    fun d => ?_, ?_, fun it => ?_, fun d r chunk => ?_, ?_⟩, fun _ => rfl, ?_⟩
  · have key : ((s.set p fun it => { it with linked := false }).item p).key = (s.item p).key :=
      set_item_of_eq (·.key) rfl
    have delete : (s.set p fun it => { it with linked := false }).assoc.assocDelete
        (s.item p).key (g.hash (s.item p).key) = some a := deleted
    have state :
        ({ s.set p fun it => { it with linked := false } with assoc := a } : Cache) = v := by
      rw [made, ← here]
      rfl
    rw [Cache.unlinkItem, key, delete, Option.bind_eq_bind, Option.bind_some, state]
    exact listed.unlinkQ (class_ ▸ mem) (class_ ▸ inUse.isClass)
  · rw [List.erase_of_not_mem (ok.not_free (.inl linked) d), ← h.count, made]
    rfl
  · rw [slabs, nowSame, whole_]
    rcases eq_or_ne r p with rfl | other
    · rw [update_self]
      refine ⟨fun d mem => absurd mem (gone _), fun d mem => absurd mem (gone _), fun d => ?_,
        fun _ => inUse.congr content clsid slabbed, ?_, ?_, ?_⟩
      · simp [gone, unlinked]
      · rw [refs, ok.refs, linked, unlinked, List.count_cons_self]
        rfl
      · rw [refs]
        exact ok.small
      · simp [unlinked]
    · rw [update_of_ne other]
      exact (h.items r).congr (places r other) (List.count_cons_of_ne other.symm)
  · refine ((h.sorted d).sublist List.erase_sublist).imp fun {a b} le => ?_
    rw [same (·.time) time, same (·.time) time]
    exact le
  · have assoc : (v.popLru p).assoc = a := by
      rw [made]
      rfl
    rw [assoc]
    exact inv
  · rw [mem_eraseKey whole.homed.distinct, h.table, linkedOf,
      same (·.key) (congrArg (·.key) content)]
    constructor
    · rintro ⟨⟨there, own⟩, other⟩
      refine ⟨⟨there, fun same => other ?_⟩, own⟩
      rw [← own, same]
    · rintro ⟨⟨there, other⟩, own⟩
      refine ⟨⟨there, own⟩, fun same => other ?_⟩
      have left : it ∈ stored := (h.table it).mpr ⟨there, own⟩
      have right : (⟨(s.item p).key, p⟩ : Item) ∈ stored := (h.table _).mpr ⟨linked, rfl⟩
      exact congrArg Item.addr (whole.homed.distinct.eq left right same)
  · rw [linkedOf, List.mem_cons]
    rw [slabs] at chunk
    rcases eq_or_ne r p with rfl | other
    · exact .inr (.inr (.inl (.inl rfl)))
    · rw [places r other]
      rcases h.chunks d r chunk with free | there | held | transit
      · exact .inl free
      · exact .inr (.inl ⟨there, other⟩)
      · exact .inr (.inr (.inl (.inr held)))
      · exact .inr (.inr (.inr transit))
  · rw [slabs]
    exact h.pages
  · refine ⟨same _ content, fun r => by simp [linkedOf], fun r _ => same _ time r, by simp, slabs,
      ?_, ?_, ?_, nowSame, ?_⟩
    · rw [made]
      rfl
    · rw [← beside.thread, made]
      rfl
    · rw [made]
      rfl
    · rw [made]
      rfl

/-- `do_item_unlink` of an item of the cache. -/
theorem Sound.unlink (h : Sound g s q stored own loose) (linked : (s.item p).linked = true)
    (out : ¬ s.assoc.thread.Expands) :
    ∃ t q', s.doItemUnlink g p (g.hash (s.item p).key) = some t ∧
      Sound g t q' (eraseKey Item.key (s.item p).key stored) own loose ∧
      (∀ c, q' (.lru c) = (q (.lru c)).erase p) ∧ Kept [p] [] s t := by
  obtain ⟨t, q', ran, sound, lists, kept⟩ := h.unlinkItem linked out
  obtain ⟨u, q'', removed, sound', lru, kept'⟩ := sound.remove
  refine ⟨u, q'', ?_, sound', fun c => (lru c).trans (lists _), kept.trans kept'⟩
  rw [doItemUnlink, if_pos linked, ran]
  exact removed

/-- `do_item_update` puts an item of the cache to the front of its list, if it was not there for
a minute. -/
theorem Sound.refresh (h : Sound g s q stored own loose) (now : 0 < s.currentTime) :
    ∃ t q' fresh, s.doItemUpdate p = some t ∧ Sound g t q' stored own loose ∧
      (∀ c r, r ∈ q' (.lru c) ↔ r ∈ q (.lru c)) ∧ (∀ c, q' (.free c) = q (.free c)) ∧
      fresh ⊆ [p] ∧ Kept [] fresh s t := by
  have still : ∃ t q' fresh, some s = some t ∧ Sound g t q' stored own loose ∧
      (∀ c r, r ∈ q' (.lru c) ↔ r ∈ q (.lru c)) ∧ (∀ c, q' (.free c) = q (.free c)) ∧
      fresh ⊆ [p] ∧ Kept [] fresh s t :=
    ⟨s, q, [], rfl, h, fun _ _ => Iff.rfl, fun _ => rfl, List.nil_subset _, .refl s⟩
  rw [doItemUpdate]
  split
  · split
    · next linked =>
      have ok := h.items p
      have inUse := ok.used (.inl linked)
      have mem := h.mem_lru linked
      have popped := h.listed.pop mem rfl
      obtain ⟨v, made⟩ : ∃ v, v = (s.popLru p).set p fun it => { it with time := s.currentTime } :=
        ⟨_, rfl⟩
      have item : v.item = update s.item p { s.item p with time := s.currentTime } := by
        rw [made]
        rfl
      have class_ : (v.item p).slabsClsid = (s.item p).slabsClsid := by rw [item, update_self]
      have listed : Listed v (update q (.lru (s.item p).slabsClsid)
          ((q (.lru (s.item p).slabsClsid)).erase p)) := by
        rw [made]
        exact popped
      have off : ∀ i, p ∉ update q (.lru (s.item p).slabsClsid)
          ((q (.lru (s.item p).slabsClsid)).erase p) i := fun i => by
        rw [h.erase_lru linked]
        exact (h.queues.nodup i).not_mem_erase
      have slabbed : (v.item p).slabbed = false := by
        rw [item, update_self]
        exact inUse.slabbed
      have linkQ := listed.linkQ off (h.ne_zero (.inl linked)) slabbed
        (class_ ▸ inUse.isClass)
      have pushed := listed.push off (h.ne_zero (.inl linked)) class_
      rw [update_self, update_idem] at pushed
      have same {α : Type} (f : Stritem → α)
          (eq : f { s.item p with time := s.currentTime } = f (s.item p)) (r : Nat) :
          f ((v.pushLru p).item r) = f (s.item r) := by
        change f (v.item r) = _
        rw [item]
        exact apply_update_of_eq f eq
      have others : ∀ r ≠ p, (v.pushLru p).item r = s.item r := fun r other => by
        change v.item r = _
        rw [item, update_of_ne other]
      have here : (v.pushLru p).item p = { s.item p with time := s.currentTime } := by
        change v.item p = _
        rw [item, update_self]
      have places : ∀ i r, r ∈ update q (.lru (s.item p).slabsClsid)
          (p :: (q (.lru (s.item p).slabsClsid)).erase p) i ↔ r ∈ q i := by
        intro i r
        rcases eq_or_ne i (.lru (s.item p).slabsClsid) with rfl | apart
        · rw [update_self]
          exact (List.perm_cons_erase mem).symm.mem_iff
        · rw [update_of_ne apart]
      have rest : (v.pushLru p).slabList = s.slabList ∧
          (v.pushLru p).currentTime = s.currentTime ∧ (v.pushLru p).assoc = s.assoc ∧
          (v.pushLru p).slCurr = s.slCurr ∧ (v.pushLru p).casId = s.casId ∧
          (v.pushLru p).oldestLive = s.oldestLive ∧ (v.pushLru p).memMalloced = s.memMalloced := by
        rw [made]
        exact ⟨rfl, rfl, rfl, rfl, rfl, rfl, rfl⟩
      obtain ⟨slabs, clock, assoc, curr, cas, oldest, malloced⟩ := rest
      refine ⟨v.pushLru p, _, [p], ?_, ⟨pushed.1, pushed.2, fun d => ?_, fun r => ?_, fun d => ?_,
        ?_, fun it => ?_, fun d r chunk => ?_, ?_⟩, fun d r => places _ r,
        fun d => update_of_ne (by simp) _ _, List.Subset.refl _, ?_⟩
      · rw [h.listed.unlinkQ mem inUse.isClass, Option.bind_eq_bind, Option.bind_some]
        rw [made] at linkQ ⊢
        exact linkQ
      · rw [update_of_ne (by simp), ← h.count, curr]
      · rw [slabs, clock]
        rcases eq_or_ne r p with rfl | other
        · rw [here]
          exact ItemOk.congr ⟨ok.free, ok.slabbed, ok.lru, fun _ => inUse.congr rfl rfl rfl,
            ok.refs, ok.small, fun _ => ⟨now, Nat.le_refl _⟩⟩ (fun i => places i r) rfl
        · rw [others r other]
          exact (h.items r).congr (fun i => places i r) rfl
      · rcases eq_or_ne d (s.item p).slabsClsid with rfl | apart
        · rw [update_self]
          have nodup := h.queues.nodup (.lru (s.item p).slabsClsid)
          refine List.pairwise_cons.mpr ⟨fun r there => ?_, ?_⟩
          · have there := (nodup.mem_erase_iff.mp there)
            rw [here, others r there.1]
            exact ((h.items r).time (((h.items r).lru _).mp there.2).1).2
          · refine List.Pairwise.imp_of_mem (fun {a b} left right le => ?_)
              ((h.sorted _).sublist List.erase_sublist)
            rw [others a (nodup.mem_erase_iff.mp left).1, others b (nodup.mem_erase_iff.mp right).1]
            exact le
        · rw [update_of_ne (by simpa using apart)]
          have out : ∀ r ∈ q (.lru d), r ≠ p := by
            rintro r there rfl
            exact apart (((h.items r).lru d).mp there).2.symm
          refine List.Pairwise.imp_of_mem (fun {a b} left right le => ?_) (h.sorted d)
          rw [others a (out a left), others b (out b right)]
          exact le
      · rw [assoc]
        exact h.assoc
      · rw [h.table, same (·.linked) rfl, same (·.key) rfl]
      · rw [same (·.linked) rfl, places]
        rw [slabs] at chunk
        exact h.chunks d r chunk
      · rw [slabs]
        exact h.pages
      · refine ⟨same _ rfl, fun r => ?_, fun r out => ?_, ?_, slabs, malloced, ?_, cas, clock,
          oldest⟩
        · rw [same (·.linked) rfl]
          simp
        · rw [others r (by simpa using out)]
        · intro r mem
          rw [List.mem_singleton.mp mem, here]
        · rw [assoc]
    · exact still
  · exact still

theorem dead_congr (clock : t.currentTime = s.currentTime) (oldest : t.oldestLive = s.oldestLive)
    {it it' : Stritem} (time : it'.time = it.time) (exptime : it'.exptime = it.exptime) :
    t.dead it' = s.dead it := by
  rw [dead, dead, flushed, flushed, expired, expired, clock, oldest, time, exptime]

/-- The answer of the hash table, on the items. -/
theorem Sound.find (h : Sound g s q stored own loose) (out : ¬ s.assoc.thread.Expands)
    (key : List UInt8) :
    s.assoc.assocFind key (g.hash key) = some (findKey Item.key key stored) ∧
      (∀ it, findKey Item.key key stored = some it →
        (s.item it.addr).linked = true ∧ (s.item it.addr).key = key ∧ it.key = key) ∧
      (findKey Item.key key stored = none →
        ∀ r, (s.item r).linked = true → (s.item r).key ≠ key) := by
  have whole := Assoc.origin_eq out ▸ h.assoc.whole
  refine ⟨whole.find key, fun it found => ?_, fun none_ r linked own => ?_⟩
  · obtain ⟨mem, rfl⟩ := (findKey_eq_some whole.homed.distinct).mp found
    obtain ⟨linked, own⟩ := (h.table it).mp mem
    exact ⟨linked, own, rfl⟩
  · exact findKey_eq_none.mp none_ ⟨key, r⟩ ((h.table _).mpr ⟨linked, own⟩) rfl

/-- No two items of the cache have the same key. -/
theorem Sound.distinct (h : Sound g s q stored own loose)
    (left : (s.item p).linked = true) (right : (s.item r).linked = true)
    (same : (s.item p).key = (s.item r).key) : p = r :=
  congrArg Item.addr (h.assoc.whole.homed.distinct.eq (a := ⟨(s.item p).key, p⟩)
    (b := ⟨(s.item r).key, r⟩) ((h.table _).mpr ⟨left, rfl⟩) ((h.table _).mpr ⟨right, rfl⟩) same)

/-- `do_item_get` hands out the item with the key, unless it is dead. -/
theorem Sound.get (h : Sound g s q stored own loose) (out : ¬ s.assoc.thread.Expands)
    (key : List UInt8) (few : ∀ p, own.count p + 2 < 65536) :
    ∃ t it, s.doItemGet g key (g.hash key) = some (t, it) ∧
      (it = 0 ∧ (∃ q' stored', Sound g t q' stored' own loose) ∧
          (∃ off, Kept off [] s t ∧
            ∀ p ∈ off, (s.item p).linked = true ∧ (s.item p).key = key ∧ s.dead (s.item p) = true) ∧
          (∀ r, (t.item r).linked = true → (t.item r).key ≠ key) ∨
        it ≠ 0 ∧ Sound g t q stored (it :: own) loose ∧ Kept [] [] s t ∧
          (s.item it).linked = true ∧ (s.item it).key = key ∧ s.dead (s.item it) = false) := by
  obtain ⟨ran, found, absent⟩ := h.find out key
  rw [doItemGet, ran, Option.bind_eq_bind, Option.bind_some]
  cases answer : findKey Item.key key stored with
  | none =>
      exact ⟨s, 0, rfl, .inl ⟨rfl, ⟨q, stored, h⟩, ⟨[], .refl s, by simp⟩, absent answer⟩⟩
  | some it =>
      obtain ⟨linked, own_, -⟩ := found it answer
      have counted := h.incr (.inl linked) (few it.addr)
      have kept : Kept [] [] s (s.refcountIncr it.addr) := .incr
      have linked' : ((s.refcountIncr it.addr).item it.addr).linked = true :=
        (kept.linked _).mpr ⟨linked, List.not_mem_nil⟩
      have key' : ((s.refcountIncr it.addr).item it.addr).key = key :=
        (congrArg (·.key) (kept.content it.addr)).trans own_
      have same : (s.refcountIncr it.addr).dead ((s.refcountIncr it.addr).item it.addr) =
          s.dead (s.item it.addr) :=
        dead_congr rfl rfl (kept.time _ List.not_mem_nil) (congrArg (·.exptime) (kept.content _))
      dsimp only
      rw [same]
      cases dead_ : s.dead (s.item it.addr) with
      | true =>
          obtain ⟨t, q', ran', sound, -, kept'⟩ := counted.unlink linked' out
          obtain ⟨u, q'', removed, sound', -, kept''⟩ := sound.remove
          rw [key'] at ran' sound'
          have all := (kept.trans kept').trans kept''
          refine ⟨u, 0, ?_, .inl ⟨rfl, ⟨q'', _, sound'⟩, ⟨_, all, ?_⟩, ?_⟩⟩
          · rw [if_pos rfl, ran', Option.bind_eq_bind, Option.bind_some, removed]
            rfl
          · intro p mem
            obtain rfl : p = it.addr := by simpa using mem
            exact ⟨linked, own_, dead_⟩
          · intro r there own'
            obtain ⟨before, other⟩ := (all.linked r).mp there
            rw [show (u.item r).key = (s.item r).key from congrArg (·.key) (all.content r)] at own'
            exact other (by simp [h.distinct before linked (own'.trans own_.symm)])
      | false =>
          have ok := counted.items it.addr
          have fetched : Sound g ((s.refcountIncr it.addr).set it.addr
              fun it => { it with fetched := true }) q stored (it.addr :: own) loose :=
            counted.set (it.addr :: own) ⟨ok.free, ok.slabbed, ok.lru,
              fun used => (ok.used used).congr rfl rfl rfl, ok.refs, ok.small, ok.time⟩
              (fun _ _ => rfl) rfl rfl rfl (List.Subset.refl _) fun held => .inr (.inl held)
          refine ⟨_, it.addr, rfl, .inr ⟨h.ne_zero (.inl linked), fetched,
            kept.trans (.set rfl rfl rfl), linked, own_, dead_⟩⟩

/-- `do_item_replace` puts an item in the place of another one with its key. -/
theorem Sound.replace {old : Nat} (h : Sound g s q stored (p :: own) loose)
    (linked : (s.item old).linked = true) (unlinked : (s.item p).linked = false)
    (key : (s.item old).key = (s.item p).key) (out : ¬ s.assoc.thread.Expands)
    (few : own.count p + 2 < 65536) (now : 0 < s.currentTime) :
    ∃ t m q' stored', s.doItemReplace g old p (g.hash (s.item p).key) = some t ∧
      Sound g t q' stored' (p :: own) loose ∧ Kept [old] [] s m ∧ Linked g p m t := by
  have inUse := (h.items old).used (.inl linked)
  obtain ⟨m, q', ran, sound, -, kept⟩ := h.unlink linked out
  rw [key] at ran
  have same := congrArg (·.key) (kept.content p)
  obtain ⟨t, q'', ran', sound', linked_⟩ := sound.link (kept.unlinked unlinked) (kept.thread ▸ out) (by
    intro r there own_
    obtain ⟨before, other⟩ := (kept.linked r).mp there
    have keyR : (m.item r).key = (s.item r).key := congrArg (·.key) (kept.content r)
    have keyP : (m.item p).key = (s.item p).key := same
    rw [keyR, keyP, ← key] at own_
    exact other (by simp [h.distinct before linked own_])) few (kept.currentTime ▸ now)
  rw [show (m.item p).key = (s.item p).key from same] at ran'
  refine ⟨t, m, q'', _, ?_, sound', kept, linked_⟩
  rw [doItemReplace, if_neg (by simp [inUse.slabbed]), ran]
  exact ran'

/-! ### flush_all -/

/-- There are no more items on a list than chunks of its class. -/
theorem Sound.length_lru (h : Sound g s q stored own loose) (c : Nat) :
    (q (.lru c)).length ≤ (s.slabList c).length * g.perslab c := by
  have all : q (.lru c) ⊆ (s.slabList c).flatMap fun page => chunkList g c page (g.perslab c) := by
    intro r mem
    obtain ⟨linked, rfl⟩ := ((h.items r).lru c).mp mem
    obtain ⟨page, there, k, small, same⟩ := ((h.items r).used (.inl linked)).chunk
    exact List.mem_flatMap.mpr ⟨page, there, mem_chunkList.mpr ⟨k, small, same⟩⟩
  have size : ∀ n ptr, (chunkList g c ptr n).length = n := by
    intro n
    induction n with
    | zero => exact fun _ => rfl
    | succ n ih => exact fun ptr => congrArg (· + 1) (ih _)
  refine ((h.queues.nodup _).subperm all).length_le.trans (Nat.le_of_eq ?_)
  simp only [List.length_flatMap, size, List.map_const', List.sum_replicate_nat]

/-- The loop over a list takes the items off it that are not older than the flush. -/
theorem Sound.flushFrom {fuel : Nat} (h : Sound g s q stored own loose)
    (out : ¬ s.assoc.thread.Expands) (enough : (q (.lru c)).length < fuel) :
    ∃ t q' stored' off, flushFrom g fuel (s.heads c) s = some t ∧
      Sound g t q' stored' own loose ∧ Kept off [] s t ∧
      (∀ r ∈ off, r ∈ q (.lru c) ∧ s.oldestLive ≤ (s.item r).time) ∧
      (∀ d, q' (.lru d) ⊆ q (.lru d)) ∧
      ∀ r ∈ q' (.lru c), (s.item r).time < s.oldestLive := by
  induction fuel generalizing s q stored with
  | zero => omega
  | succ fuel ih =>
      have first : s.heads c = (q (.lru c)).headD 0 := h.queues.first (.lru c)
      rw [Cache.flushFrom]
      cases list : q (.lru c) with
      | nil =>
          rw [list] at first
          have none_ : s.heads c = 0 := first
          rw [if_pos none_]
          exact ⟨s, q, stored, [], rfl, h, .refl s, by simp, fun _ _ => id, by simp [list]⟩
      | cons p l =>
          rw [list] at first enough
          have head : s.heads c = p := first
          have mem : p ∈ q (.lru c) := by
            rw [list]
            exact List.mem_cons_self
          obtain ⟨linked, class_⟩ := ((h.items p).lru c).mp mem
          have inUse := (h.items p).used (.inl linked)
          have positive := ((h.items p).time linked).1
          rw [head, if_neg (h.ne_zero (.inl linked))]
          by_cases young : s.oldestLive ≤ (s.item p).time
          · rw [if_pos ⟨positive.ne', young⟩, if_neg (by simp [inUse.slabbed])]
            obtain ⟨t, q', ran, sound, lists, kept⟩ := h.unlink linked out
            have rest : q' (.lru c) = l := by rw [lists, list, List.erase_cons_head]
            have follow : s.next p = t.heads c := by
              have seg := h.queues.seg (.lru c)
              rw [list] at seg
              have there : t.heads c = (q' (.lru c)).headD 0 := sound.queues.first (.lru c)
              rw [there, rest]
              exact seg.2.1
            obtain ⟨u, q'', stored', off, ran', sound', kept', gone, sub, left⟩ :=
              ih sound (kept.thread ▸ out) (by rw [rest]; simpa using enough)
            refine ⟨u, q'', stored', [p] ++ off, ?_, sound', kept.trans kept', fun r there => ?_,
              fun d r there => ?_, fun r there => ?_⟩
            · rw [ran, Option.bind_some, follow]
              exact ran'
            · rcases List.mem_append.mp there with here | there
              · rw [List.mem_singleton.mp here]
                exact ⟨List.mem_cons_self, young⟩
              · obtain ⟨mem', young'⟩ := gone r there
                rw [rest] at mem'
                rw [kept.oldestLive, kept.time r List.not_mem_nil] at young'
                exact ⟨List.mem_cons_of_mem p mem', young'⟩
            · have there := sub d there
              rw [lists] at there
              exact List.mem_of_mem_erase there
            · have old := left r there
              rwa [kept.oldestLive, kept.time r List.not_mem_nil] at old
          · rw [if_neg fun there => young there.2]
            refine ⟨s, q, stored, [], rfl, h, .refl s, by simp, fun _ _ => id, fun r there => ?_⟩
            have sorted := h.sorted c
            rw [list] at sorted there
            rcases List.mem_cons.mp there with rfl | there
            · exact Nat.lt_of_not_le young
            · have le := (List.pairwise_cons.mp sorted).1 r there
              omega

/-- `do_item_flush_expired` takes all items out of the cache that are not older than the flush. -/
theorem Sound.flushExpired (h : Sound g s q stored own loose) (out : ¬ s.assoc.thread.Expands) :
    ∃ t q' stored' off, s.doItemFlushExpired g = some t ∧ Sound g t q' stored' own loose ∧
      Kept off [] s t ∧
      (∀ r ∈ off, (s.item r).linked = true ∧ s.oldestLive ≤ (s.item r).time) ∧
      (s.oldestLive ≠ 0 → ∀ r, (t.item r).linked = true → (s.item r).time < s.oldestLive) := by
  have lists : ∀ (cs : List Nat) {s : Cache} {q : Place → List Nat} {stored : List Item},
      Sound g s q stored own loose → ¬ s.assoc.thread.Expands →
      ∃ t q' stored' off, cs.foldlM (fun s i => Cache.flushFrom g
          ((s.slabList i).length * g.perslab i + 1) (s.heads i) s) s = some t ∧
        Sound g t q' stored' own loose ∧ Kept off [] s t ∧
        (∀ r ∈ off, (s.item r).linked = true ∧ s.oldestLive ≤ (s.item r).time) ∧
        (∀ d, q' (.lru d) ⊆ q (.lru d)) ∧
        ∀ c ∈ cs, ∀ r ∈ q' (.lru c), (s.item r).time < s.oldestLive := by
    intro cs
    induction cs with
    | nil =>
        intro s q stored h _
        exact ⟨s, q, stored, [], rfl, h, .refl s, by simp, fun _ _ => id, by simp⟩
    | cons c cs ih =>
        intro s q stored h out
        obtain ⟨t, q', stored', off, ran, sound, kept, gone, sub, left⟩ :=
          h.flushFrom out (Nat.lt_succ_of_le (h.length_lru c))
        obtain ⟨u, q'', stored'', off', ran', sound', kept', gone', sub', left'⟩ :=
          ih sound (kept.thread ▸ out)
        refine ⟨u, q'', stored'', off ++ off', ?_, sound', kept.trans kept', fun r mem => ?_,
          fun d => List.Subset.trans (sub' d) (sub d), fun d mem r there => ?_⟩
        · rw [List.foldlM_cons, ran]
          exact ran'
        · rcases List.mem_append.mp mem with mem | mem
          · obtain ⟨there, young⟩ := gone r mem
            exact ⟨(((h.items r).lru c).mp there).1, young⟩
          · obtain ⟨there, young⟩ := gone' r mem
            rw [kept.oldestLive, kept.time r List.not_mem_nil] at young
            exact ⟨((kept.linked r).mp there).1, young⟩
        · rcases List.mem_cons.mp mem with rfl | mem
          · exact left r (sub' d there)
          · have old := left' d mem r there
            rwa [kept.oldestLive, kept.time r List.not_mem_nil] at old
  rw [doItemFlushExpired]
  split
  · next none_ =>
    exact ⟨s, q, stored, [], rfl, h, .refl s, by simp, fun some_ => absurd none_ some_⟩
  · obtain ⟨t, q', stored', off, ran, sound, kept, gone, -, left⟩ :=
      lists (List.range largestId) h out
    refine ⟨t, q', stored', off, ran, sound, kept, gone, fun _ r there => ?_⟩
    have isClass := ((sound.items r).used (.inl there)).isClass.2
    have lt := g.power_lt
    exact left _ (List.mem_range.mpr (by rw [largestId]; omega)) r (sound.mem_lru there)

end Sound

end Cache

end Shang.Memcached

import Shang.Lib.Queues
import Shang.Memcached.AssocRuns

/-!
# Items and chunks of memcached

The items of `memcached.h` live in chunks that `slabs.c` cuts out of pages. A chunk that is
not in use is on the free list of its class (`slots`); the items of a class that are in the
cache are on its LRU list (`heads`, `tails`), linked through the same two fields. `hash`, the
sizes of the classes and the other settings do not change while the server runs, and there is
no slab rebalancing (`slab_reassign` is off, as by default).

A function is `none` where it would fail an assertion or read through a null pointer.
-/

namespace Shang.Memcached

open Lib Function

/-! ## The program -/

/-- What the server was started with: `settings`, and the sizes that `slabs_init` computed. -/
structure Settings where
  hash : List UInt8 → UInt32
  hashBulkMove : Int
  size : Nat → Nat
  perslab : Nat → Nat
  powerLargest : Nat
  memLimit : Nat
  evictToFree : Bool
  useCas : Bool
  tailRepairTime : Nat
  size_pos : ∀ c, 0 < size c
  perslab_pos : ∀ c, 0 < perslab c
  power_pos : 0 < powerLargest
  power_lt : powerLargest < 200

/-- `LARGEST_ID` -/
def largestId : Nat := 200

/-- What an item says; `flags` stands in the suffix. -/
structure Content where
  key : List UInt8 := []
  flags : Int := 0
  exptime : Nat := 0
  nbytes : Nat := 0
  nsuffix : Nat := 0
  isCas : Bool := false
  cas : Nat := 0
  data : List UInt8 := []
  deriving DecidableEq

/-- `struct _stritem`, less its links; the bits of `it_flags` are fields. -/
structure Stritem extends Content where
  time : Nat := 0
  refcount : Nat := 0
  slabsClsid : Nat := 0
  linked : Bool := false
  slabbed : Bool := false
  fetched : Bool := false
  deriving DecidableEq

/-- `sizeof(struct _stritem)` -/
def sizeofItem : Nat := 48

/-- `ITEM_ntotal` -/
def Content.ntotal (it : Content) : Nat :=
  sizeofItem + it.key.length + 1 + it.nsuffix + it.nbytes + if it.isCas then 8 else 0

/-- `ITEM_set_cas` -/
def Stritem.setCas (it : Stritem) (cas : Nat) : Stritem :=
  if it.isCas then { it with cas := cas } else it

/-- `ITEM_get_cas` -/
def Content.getCas (it : Content) : Nat := if it.isCas then it.cas else 0

/-- The memory of the cache, and the variables of `slabs.c`, `items.c` and `assoc.c`. -/
structure Cache where
  item : Nat → Stritem
  next : Nat → Nat
  prev : Nat → Nat
  slots : Nat → Nat
  slCurr : Nat → Nat
  slabList : Nat → List Nat
  memMalloced : Nat
  heads : Nat → Nat
  tails : Nat → Nat
  assoc : Assoc
  casId : Nat
  currentTime : Nat
  oldestLive : Nat

namespace Cache

/-- Some fields of an item are written. -/
def set (s : Cache) (p : Nat) (f : Stritem → Stritem) : Cache :=
  { s with item := update s.item p (f (s.item p)) }

variable (g : Settings)

/-- The loop of `slabs_clsid`, with so many classes left behind `res`. -/
def slabsClsidFrom (size : Nat) : Nat → Nat → Nat
  | 0, res => if g.size res < size then 0 else res
  | left + 1, res => if g.size res < size then slabsClsidFrom size left (res + 1) else res

/-- `slabs_clsid` -/
def slabsClsid (size : Nat) : Nat :=
  if size = 0 then 0 else slabsClsidFrom g size (g.powerLargest - 1) 1

/-- The chunk goes to the front of the free list. -/
def pushSlot (s : Cache) (ptr id : Nat) : Cache :=
  let s := s.set ptr fun it => { it with slabbed := true }
  let slot := s.slots id
  { s with
    next := update s.next ptr slot
    prev := if slot = 0 then update s.prev ptr 0 else update (update s.prev ptr 0) slot ptr
    slots := update s.slots id ptr
    slCurr := update s.slCurr id (s.slCurr id + 1) }

/-- `do_slabs_free` -/
def doSlabsFree (s : Cache) (ptr id : Nat) : Option Cache :=
  if (s.item ptr).slabsClsid ≠ 0 ∨ id = 0 ∨ g.powerLargest < id then none
  else some (s.pushSlot ptr id)

/-- `split_slab_page_into_freelist`, with so many chunks to go. -/
def splitSlabPageIntoFreelist (id : Nat) : Nat → Nat → Cache → Option Cache
  | 0, _, s => some s
  | n + 1, ptr, s =>
      (s.doSlabsFree g ptr id).bind (splitSlabPageIntoFreelist id n (ptr + g.size id))

/-- The bytes of a page of the class. -/
def pageLen (id : Nat) : Nat := g.size id * g.perslab id

/-- `memset` of a page. -/
def zeroed (s : Cache) (ptr len : Nat) : Cache :=
  { s with item := fun p => if ptr ≤ p ∧ p < ptr + len then {} else s.item p }

/-- A page belongs to the class. -/
def addPage (s : Cache) (id ptr : Nat) : Cache :=
  { s with
    slabList := update s.slabList id (s.slabList id ++ [ptr])
    memMalloced := s.memMalloced + pageLen g id }

/-- `do_slabs_newslab`; `page` is what `memory_allocate` answers, and `none` stands also for
a failure of `grow_slab_list`. -/
def doSlabsNewslab (s : Cache) (id : Nat) (page : Option Nat) : Option (Cache × Bool) :=
  if g.memLimit ≠ 0 ∧ g.memLimit < s.memMalloced + pageLen g id ∧ s.slabList id ≠ [] then
    some (s, false)
  else match page with
    | none => some (s, false)
    | some ptr => do
        let s ← splitSlabPageIntoFreelist g id (g.perslab id) ptr (s.zeroed ptr (pageLen g id))
        return (s.addPage g id ptr, true)

/-- The first chunk of the free list is taken off. -/
def popSlot (s : Cache) (id : Nat) : Cache :=
  let it := s.slots id
  { s with
    slots := update s.slots id (s.next it)
    prev := if s.next it = 0 then s.prev else update s.prev (s.next it) 0
    slCurr := update s.slCurr id (s.slCurr id - 1) }

/-- `do_slabs_alloc`; 0 is the null pointer. -/
def doSlabsAlloc (s : Cache) (id : Nat) (page : Option Nat) : Option (Cache × Nat) :=
  if id = 0 ∨ g.powerLargest < id then some (s, 0)
  else if s.slCurr id ≠ 0 ∧ (s.slots id = 0 ∨ (s.item (s.slots id)).slabsClsid ≠ 0) then none
  else do
    let (s, more) ← if s.slCurr id ≠ 0 then some (s, true) else s.doSlabsNewslab g id page
    if more && s.slCurr id ≠ 0 then return (s.popSlot id, s.slots id) else return (s, 0)

/-! ## What holds between the calls -/

/-- The lists of the chunks. -/
inductive Place
  | free (c : Nat)
  | lru (c : Nat)
  deriving DecidableEq

/-- The first chunk of each list. -/
def firsts (slots heads : Nat → Nat) : Place → Nat
  | .free c => slots c
  | .lru c => heads c

/-- A class of `slabclass`. -/
def IsClass (c : Nat) : Prop := 0 < c ∧ c ≤ g.powerLargest

/-- A page was cut into chunks of the class, and this is one of them. -/
def IsChunk (slabList : Nat → List Nat) (c p : Nat) : Prop :=
  ∃ page ∈ slabList c, ∃ n < g.perslab c, p = page + n * g.size c

/-- No two pages share a byte. -/
structure Pages (slabList : Nat → List Nat) : Prop where
  isClass : ∀ c, ∀ page ∈ slabList c, IsClass g c
  pos : ∀ c, ∀ page ∈ slabList c, 0 < page
  apart : ∀ c d, ∀ page ∈ slabList c, ∀ other ∈ slabList d, c = d ∧ page = other ∨
    page + pageLen g c ≤ other ∨ other + pageLen g d ≤ page

/-- What `memory_allocate` answers is a page of its own. -/
def PageOk (slabList : Nat → List Nat) (c page : Nat) : Prop :=
  0 < page ∧ ∀ d < g.powerLargest + 1, ∀ other ∈ slabList d,
    page + pageLen g c ≤ other ∨ other + pageLen g d ≤ page

instance (slabList : Nat → List Nat) (c page : Nat) : Decidable (PageOk g slabList c page) :=
  inferInstanceAs (Decidable (_ ∧ _))

/-- An item that is in the cache or held. -/
structure InUse (slabList : Nat → List Nat) (p : Nat) (it : Stritem) : Prop where
  slabbed : it.slabbed = false
  isClass : IsClass g it.slabsClsid
  chunk : IsChunk g slabList it.slabsClsid p
  fits : it.ntotal ≤ g.size it.slabsClsid
  data : it.data.length = it.nbytes
  nbytes : 2 ≤ it.nbytes
  isCas : it.isCas = g.useCas

/-- A chunk that nobody uses. -/
structure Unused (slabList : Nat → List Nat) (q : Place → List Nat) (own : List Nat) (c p : Nat)
    (it : Stritem) : Prop where
  off : ∀ i, p ∉ q i
  linked : it.linked = false
  own : p ∉ own
  clsid : it.slabsClsid = 0
  isClass : IsClass g c
  chunk : IsChunk g slabList c p

/-- What the fields of an item say about it. -/
structure ItemOk (slabList : Nat → List Nat) (now : Nat) (q : Place → List Nat) (own : List Nat)
    (p : Nat) (it : Stritem) : Prop where
  free : ∀ c, p ∈ q (.free c) → IsClass g c ∧ IsChunk g slabList c p ∧ it.slabsClsid = 0 ∧
    it.linked = false ∧ p ∉ own
  slabbed : ∀ c, p ∈ q (.free c) → it.slabbed = true
  lru : ∀ c, p ∈ q (.lru c) ↔ it.linked = true ∧ it.slabsClsid = c
  used : it.linked = true ∨ p ∈ own → InUse g slabList p it
  refs : it.refcount = own.count p + it.linked.toNat
  small : it.refcount < 65536
  time : it.linked = true → 0 < it.time ∧ it.time ≤ now

/-- The chunks on the lists `q`, the items `stored` in the hash table, the references `own` that
the connections have, and chunks `loose` that are on their way from one to the other. -/
structure Sound (s : Cache) (q : Place → List Nat) (stored : List Item) (own loose : List Nat) :
    Prop where
  queues : Queues s.next s.prev 0 (firsts s.slots s.heads) q
  tails : ∀ c, s.tails c = (q (.lru c)).getLastD 0
  count : ∀ c, s.slCurr c = (q (.free c)).length
  items : ∀ p, ItemOk g s.slabList s.currentTime q own p (s.item p)
  sorted : ∀ c, (q (.lru c)).Pairwise fun a b => (s.item b).time ≤ (s.item a).time
  assoc : s.assoc.Inv g.hash stored
  table : ∀ it, it ∈ stored ↔ (s.item it.addr).linked = true ∧ (s.item it.addr).key = it.key
  chunks : ∀ c p, IsChunk g s.slabList c p →
    p ∈ q (.free c) ∨ (s.item p).linked = true ∨ p ∈ own ∨ p ∈ loose
  pages : Pages g s.slabList

section Sound

variable {g} {s t : Cache} {q q' : Place → List Nat} {stored : List Item} {own own' : List Nat}
  {loose : List Nat} {c d p r now : Nat} {slabList : Nat → List Nat} {it : Stritem}

/-! ### Chunks -/

theorem Pages.le (c : Nat) {n : Nat} (small : n < g.perslab c) :
    n * g.size c + g.size c ≤ pageLen g c := by
  rw [pageLen, ← Nat.succ_mul, Nat.mul_comm (g.size c)]
  exact Nat.mul_le_mul_right _ small

theorem IsChunk.pos (h : IsChunk g slabList c p) (pages : Pages g slabList) : 0 < p := by
  obtain ⟨page, mem, n, -, rfl⟩ := h
  exact Nat.add_pos_left (pages.pos c page mem) _

/-- Two chunks are the same one, or share no byte. -/
theorem IsChunk.apart (pages : Pages g slabList) (left : IsChunk g slabList c p)
    (right : IsChunk g slabList d r) :
    c = d ∧ p = r ∨ p + g.size c ≤ r ∨ r + g.size d ≤ p := by
  obtain ⟨page, mem, n, small, rfl⟩ := left
  obtain ⟨other, mem', m, small', rfl⟩ := right
  have inside := Pages.le c small
  have inside' := Pages.le d small'
  rcases pages.apart c d page mem other mem' with ⟨rfl, rfl⟩ | before | behind
  · rcases Nat.lt_trichotomy n m with lt | rfl | gt
    · have := Nat.mul_le_mul_right (g.size c) (Nat.succ_le_of_lt lt)
      rw [Nat.succ_mul] at this
      omega
    · exact .inl ⟨rfl, rfl⟩
    · have := Nat.mul_le_mul_right (g.size c) (Nat.succ_le_of_lt gt)
      rw [Nat.succ_mul] at this
      omega
  · omega
  · omega

/-- A chunk is of one class. -/
theorem IsChunk.unique (pages : Pages g slabList) (left : IsChunk g slabList c p)
    (right : IsChunk g slabList d p) : c = d := by
  have pos := g.size_pos c
  have pos' := g.size_pos d
  rcases left.apart pages right with ⟨same, -⟩ | before | behind
  · exact same
  · omega
  · omega

/-! ### One item -/

/-- The references and the times of an item may change while it is in use. -/
theorem InUse.congr {it' : Stritem} (h : InUse g slabList p it)
    (content : it'.toContent = it.toContent) (clsid : it'.slabsClsid = it.slabsClsid)
    (slabbed : it'.slabbed = it.slabbed) : InUse g slabList p it' where
  slabbed := slabbed.trans h.slabbed
  isClass := clsid ▸ h.isClass
  chunk := clsid ▸ h.chunk
  fits := content ▸ clsid ▸ h.fits
  data := content ▸ h.data
  nbytes := content ▸ h.nbytes
  isCas := content ▸ h.isCas

/-- What is said of an item depends on the places of its chunk and the references to it only. -/
theorem ItemOk.congr (h : ItemOk g slabList now q own p it) (places : ∀ i, p ∈ q' i ↔ p ∈ q i)
    (refs : own'.count p = own.count p) : ItemOk g slabList now q' own' p it where
  free c mem := by
    rw [← List.count_eq_zero, refs, List.count_eq_zero]
    exact h.free c ((places _).mp mem)
  slabbed c mem := h.slabbed c ((places _).mp mem)
  lru c := by rw [places, h.lru]
  used used := by
    rw [← List.count_pos_iff, refs, List.count_pos_iff] at used
    exact h.used used
  refs := by rw [refs, h.refs]
  small := h.small
  time := h.time

theorem Unused.ne_zero (unused : Unused g slabList q own c p it) (pages : Pages g slabList) :
    p ≠ 0 :=
  Nat.pos_iff_ne_zero.mp (unused.chunk.pos pages)

theorem firsts_update_free (slots heads : Nat → Nat) :
    firsts (update slots c p) heads = update (firsts slots heads) (.free c) p := by
  funext i
  cases i with
  | free d =>
      rcases eq_or_ne d c with rfl | other
      · simp [firsts]
      · simp [firsts, other]
  | lru d => rfl

theorem firsts_update_lru (slots heads : Nat → Nat) :
    firsts slots (update heads c p) = update (firsts slots heads) (.lru c) p := by
  funext i
  cases i with
  | free d => rfl
  | lru d =>
      rcases eq_or_ne d c with rfl | other
      · simp [firsts]
      · simp [firsts, other]

/-- A chunk that nobody uses goes on the free list. -/
theorem Sound.pushSlot (h : Sound g s q stored own (p :: loose))
    (unused : Unused g s.slabList q own c p (s.item p)) :
    Sound g (s.pushSlot p c) (update q (.free c) (p :: q (.free c))) stored own loose := by
  have elsewhere : ∀ r ≠ p, ∀ i, r ∈ update q (.free c) (p :: q (.free c)) i ↔ r ∈ q i := by
    intro r other i
    rcases eq_or_ne i (.free c) with rfl | apart
    · simp [other]
    · rw [update_of_ne apart]
  have same {α : Type} (f : Stritem → α) (eq : f { s.item p with slabbed := true } = f (s.item p))
      (r : Nat) : f ((s.pushSlot p c).item r) = f (s.item r) := apply_update_of_eq f eq
  refine ⟨?_, ?_, ?_, fun r => ?_, ?_, h.assoc, fun it => ?_, fun d r chunk => ?_, h.pages⟩
  · have pushed := h.queues.push (.free c) unused.off (unused.ne_zero h.pages)
    rwa [← firsts_update_free] at pushed
  · intro d
    rw [update_of_ne (by simp)]
    exact h.tails d
  · intro d
    change update s.slCurr c (s.slCurr c + 1) d = _
    rcases eq_or_ne d c with rfl | other
    · rw [update_self, update_self, List.length_cons, h.count]
    · rw [update_of_ne other, update_of_ne (by simpa using other), h.count]
  · rcases eq_or_ne r p with rfl | other
    · have ok := h.items r
      have item : (s.pushSlot r c).item r = { s.item r with slabbed := true } := update_self _ _ _
      rw [item]
      refine ⟨fun d mem => ?_, fun _ _ => rfl, fun d => ?_, fun used => ?_, ok.refs, ok.small,
        ok.time⟩
      · rcases eq_or_ne d c with rfl | other
        · exact ⟨unused.isClass, unused.chunk, unused.clsid, unused.linked, unused.own⟩
        · rw [update_of_ne (by simpa using other)] at mem
          exact absurd mem (unused.off _)
      · rw [update_of_ne (by simp)]
        exact ok.lru d
      · rcases used with linked | held
        · exact absurd linked (by simp [unused.linked])
        · exact absurd held unused.own
    · rw [show (s.pushSlot p c).item r = s.item r from update_of_ne other _ _]
      exact (h.items r).congr (elsewhere r other) rfl
  · intro d
    rw [update_of_ne (by simp)]
    refine (h.sorted d).imp fun {a b} le => ?_
    rw [same (·.time) rfl, same (·.time) rfl]
    exact le
  · rw [h.table, same (·.linked) rfl, same (·.key) rfl]
  · rw [same (·.linked) rfl]
    rcases h.chunks d r chunk with free | linked | held | transit
    · rcases eq_or_ne r p with rfl | other
      · exact absurd free (unused.off _)
      · exact .inl ((elsewhere r other _).mpr free)
    · exact .inr (.inl linked)
    · exact .inr (.inr (.inl held))
    · rcases List.mem_cons.mp transit with rfl | transit
      · rw [chunk.unique h.pages unused.chunk, update_self]
        exact .inl List.mem_cons_self
      · exact .inr (.inr (.inr transit))

/-- The first chunk of a free list is taken off. -/
theorem Sound.popSlot (h : Sound g s q stored own loose) (some : s.slCurr c ≠ 0) :
    ∃ q', Sound g (s.popSlot c) q' stored own (s.slots c :: loose) ∧
      Unused g s.slabList q' own c (s.slots c) (s.item (s.slots c)) ∧
      ∀ d, q' (.lru d) = q (.lru d) := by
  have first := h.queues.first (.free c)
  rw [h.count] at some
  cases list : q (.free c) with
  | nil => simp [list] at some
  | cons p l =>
      have head : s.slots c = p := by
        rw [list] at first
        exact first
      have mem : p ∈ q (.free c) := by
        rw [list]
        exact List.mem_cons_self
      have rest : (q (.free c)).erase p = l := by rw [list, List.erase_cons_head]
      have nodup := h.queues.nodup (.free c)
      rw [list] at nodup
      have off := (List.nodup_cons.mp nodup).1
      have back : s.prev p = 0 := by
        have seg := h.queues.seg (.free c)
        rw [list] at seg
        exact seg.1
      have queues := h.queues.remove mem
      rw [if_pos back, back, if_pos (show firsts s.slots s.heads (.free c) = p from head), rest,
        ← firsts_update_free] at queues
      obtain ⟨isClass, chunk, clsid, unlinked, unheld⟩ := (h.items p).free c mem
      have places : ∀ r ≠ p, ∀ i, r ∈ update q (.free c) l i ↔ r ∈ q i := by
        intro r other i
        rcases eq_or_ne i (.free c) with rfl | apart
        · simp [list, other]
        · rw [update_of_ne apart]
      have gone : ∀ i, p ∉ update q (.free c) l i := by
        intro i
        rcases eq_or_ne i (.free c) with rfl | apart
        · rwa [update_self]
        · rw [update_of_ne apart]
          exact fun there => apart (h.queues.apart there mem)
      rw [head]
      refine ⟨update q (.free c) l, ⟨?_, ?_, ?_, fun r => ?_, ?_, h.assoc, h.table, ?_, h.pages⟩,
        ⟨gone, unlinked, unheld, clsid, isClass, chunk⟩, fun d => update_of_ne (by simp) _ _⟩
      · rw [← head] at queues
        exact queues
      · intro d
        rw [update_of_ne (by simp)]
        exact h.tails d
      · intro d
        change update s.slCurr c (s.slCurr c - 1) d = _
        rcases eq_or_ne d c with rfl | other
        · rw [update_self, update_self, h.count, list, List.length_cons, Nat.add_sub_cancel]
        · rw [update_of_ne other, update_of_ne (by simpa using other), h.count]
      · rcases eq_or_ne r p with rfl | other
        · have ok := h.items r
          refine ⟨fun d there => absurd there (gone _), fun d there => absurd there (gone _),
            fun d => ?_, ok.used, ok.refs, ok.small, ok.time⟩
          rw [update_of_ne (by simp)]
          exact ok.lru d
        · exact (h.items r).congr (places r other) rfl
      · intro d
        rw [update_of_ne (by simp)]
        exact h.sorted d
      · intro d r there
        rcases h.chunks d r there with free | linked | held | transit
        · rcases eq_or_ne r p with rfl | other
          · exact .inr (.inr (.inr List.mem_cons_self))
          · exact .inl ((places r other _).mpr free)
        · exact .inr (.inl linked)
        · exact .inr (.inr (.inl held))
        · exact .inr (.inr (.inr (List.mem_cons_of_mem p transit)))

/-! ### Pages -/

/-- What `slabs.c` leaves alone: all but the free lists and the chunks on them. -/
structure Supplied (s t : Cache) : Prop where
  item : ∀ r, (s.item r).refcount ≠ 0 → t.item r = s.item r
  linked : ∀ r, (t.item r).linked = (s.item r).linked
  heads : t.heads = s.heads
  tails : t.tails = s.tails
  assoc : t.assoc = s.assoc
  casId : t.casId = s.casId
  currentTime : t.currentTime = s.currentTime
  oldestLive : t.oldestLive = s.oldestLive

theorem Supplied.refl (s : Cache) : Supplied s s :=
  ⟨fun _ _ => rfl, fun _ => rfl, rfl, rfl, rfl, rfl, rfl, rfl⟩

theorem Supplied.trans {u : Cache} (first : Supplied s t) (rest : Supplied t u) : Supplied s u where
  item r used := by
    have same := first.item r used
    rw [← same]
    exact rest.item r (by rwa [same])
  linked r := (rest.linked r).trans (first.linked r)
  heads := rest.heads.trans first.heads
  tails := rest.tails.trans first.tails
  assoc := rest.assoc.trans first.assoc
  casId := rest.casId.trans first.casId
  currentTime := rest.currentTime.trans first.currentTime
  oldestLive := rest.oldestLive.trans first.oldestLive

theorem Unused.refcount (unused : Unused g slabList q own c p it)
    (ok : ItemOk g slabList now q own p it) : it.refcount = 0 := by
  rw [ok.refs, unused.linked, List.count_eq_zero.mpr unused.own]
  rfl

theorem Supplied.pushSlot (unused : (s.item p).refcount = 0) : Supplied s (s.pushSlot p c) where
  item r used := by
    have other : r ≠ p := by
      rintro rfl
      exact used unused
    exact update_of_ne other _ _
  linked r := apply_update_of_eq (fun it : Stritem => it.linked) rfl
  heads := rfl
  tails := rfl
  assoc := rfl
  casId := rfl
  currentTime := rfl
  oldestLive := rfl

theorem Unused.doSlabsFree (unused : Unused g slabList q own c p (s.item p)) :
    s.doSlabsFree g p c = some (s.pushSlot p c) := by
  have small := unused.isClass.2
  exact if_neg (by simp [unused.clsid, unused.isClass.1.ne', small])

variable (g c) in
/-- So many chunks from an address on. -/
def chunkList : Nat → Nat → List Nat
  | _, 0 => []
  | ptr, n + 1 => ptr :: chunkList (ptr + g.size c) n

theorem mem_chunkList {ptr n : Nat} :
    r ∈ chunkList g c ptr n ↔ ∃ k < n, r = ptr + k * g.size c := by
  induction n generalizing ptr with
  | zero => simp [chunkList]
  | succ n ih =>
      rw [chunkList, List.mem_cons, ih]
      constructor
      · rintro (rfl | ⟨k, small, rfl⟩)
        · exact ⟨0, Nat.succ_pos n, by simp⟩
        · exact ⟨k + 1, by omega, by rw [Nat.succ_mul]; omega⟩
      · rintro ⟨k, small, rfl⟩
        cases k with
        | zero => exact .inl (by simp)
        | succ k => exact .inr ⟨k, by omega, by rw [Nat.succ_mul]; omega⟩

theorem nodup_chunkList {ptr n : Nat} : (chunkList g c ptr n).Nodup := by
  induction n generalizing ptr with
  | zero => exact List.nodup_nil
  | succ n ih =>
      refine List.nodup_cons.mpr ⟨fun mem => ?_, ih⟩
      obtain ⟨k, -, same⟩ := mem_chunkList.mp mem
      have := g.size_pos c
      omega

/-- The chunks of a page go on the free list. -/
theorem Sound.split {n ptr : Nat} (h : Sound g s q stored own (chunkList g c ptr n ++ loose))
    (unused : ∀ r ∈ chunkList g c ptr n, Unused g s.slabList q own c r (s.item r)) :
    ∃ t q', splitSlabPageIntoFreelist g c n ptr s = some t ∧ Sound g t q' stored own loose ∧
      (∀ d, q' (.lru d) = q (.lru d)) ∧ Supplied s t ∧ t.slCurr c = s.slCurr c + n := by
  induction n generalizing s q ptr with
  | zero => exact ⟨s, q, rfl, h, fun _ => rfl, .refl s, rfl⟩
  | succ n ih =>
      have here := unused ptr List.mem_cons_self
      have distinct : (chunkList g c ptr (n + 1)).Nodup := nodup_chunkList
      obtain ⟨off, -⟩ := List.nodup_cons.mp distinct
      have pushed := h.pushSlot here
      obtain ⟨t, q', ran, sound, lru, supplied, count⟩ := ih pushed fun r mem => by
        have other := ne_of_mem_of_not_mem mem off
        obtain ⟨out, linked, unheld, clsid, isClass, chunk⟩ :=
          unused r (List.mem_cons_of_mem ptr mem)
        rw [show (s.pushSlot ptr c).item r = s.item r from update_of_ne other _ _]
        refine ⟨fun i => ?_, linked, unheld, clsid, isClass, chunk⟩
        rcases eq_or_ne i (.free c) with rfl | apart
        · simpa [other] using out (.free c)
        · rw [update_of_ne apart]
          exact out i
      refine ⟨t, q', ?_, sound, fun d => ?_, ?_, ?_⟩
      · rw [splitSlabPageIntoFreelist, here.doSlabsFree]
        exact ran
      · rw [lru, update_of_ne (by simp)]
      · exact (Supplied.pushSlot (here.refcount (h.items ptr))).trans supplied
      · rw [count]
        have one : (s.pushSlot ptr c).slCurr c = s.slCurr c + 1 := update_self _ _ _
        omega

/-- Cutting does not look at the list of the pages. -/
theorem split_addPage {n ptr page : Nat} :
    splitSlabPageIntoFreelist g c n ptr (s.addPage g c page) =
      (splitSlabPageIntoFreelist g c n ptr s).map (addPage g · c page) := by
  induction n generalizing s ptr with
  | zero => rfl
  | succ n ih =>
      have one : (s.addPage g c page).doSlabsFree g ptr c =
          (s.doSlabsFree g ptr c).map (addPage g · c page) := by
        rw [Cache.doSlabsFree, Cache.doSlabsFree]
        by_cases bad : (s.item ptr).slabsClsid ≠ 0 ∨ c = 0 ∨ g.powerLargest < c
        · rw [if_pos bad]
          exact if_pos bad
        · rw [if_neg bad]
          exact if_neg bad
      rw [splitSlabPageIntoFreelist, splitSlabPageIntoFreelist, one]
      cases s.doSlabsFree g ptr c with
      | none => rfl
      | some t => exact ih

theorem mem_addPage {page other : Nat} :
    other ∈ update slabList c (slabList c ++ [page]) d ↔
      other ∈ slabList d ∨ d = c ∧ other = page := by
  rcases eq_or_ne d c with rfl | apart
  · simp
  · simp [apart]

theorem IsChunk.mono (chunk : IsChunk g slabList d r) {page : Nat} :
    IsChunk g (update slabList c (slabList c ++ [page])) d r := by
  obtain ⟨other, mem, rest⟩ := chunk
  exact ⟨other, mem_addPage.mpr (.inl mem), rest⟩

theorem ItemOk.mono {slabList' : Nat → List Nat} (h : ItemOk g slabList now q own p it)
    (more : ∀ c, IsChunk g slabList c p → IsChunk g slabList' c p) :
    ItemOk g slabList' now q own p it where
  free c mem := by
    obtain ⟨isClass, chunk, rest⟩ := h.free c mem
    exact ⟨isClass, more c chunk, rest⟩
  slabbed := h.slabbed
  lru := h.lru
  used used := { h.used used with chunk := more _ (h.used used).chunk }
  refs := h.refs
  small := h.small
  time := h.time

/-- Memory that is no chunk yet. -/
theorem ItemOk.raw (h : ItemOk g slabList now q own p it) (raw : ∀ c, ¬ IsChunk g slabList c p) :
    (∀ i, p ∉ q i) ∧ it.linked = false ∧ p ∉ own ∧ it.refcount = 0 := by
  have linked : it.linked = false := by
    rw [Bool.eq_false_iff]
    exact fun linked => raw _ (h.used (.inl linked)).chunk
  have own : p ∉ own := fun held => raw _ (h.used (.inr held)).chunk
  refine ⟨fun i mem => ?_, linked, own, ?_⟩
  · cases i with
    | free c => exact raw c (h.free c mem).2.1
    | lru c => simp [h.lru, linked] at mem
  · rw [h.refs, linked, List.count_eq_zero.mpr own]
    rfl

/-- A new page is zeroed, and nobody uses its chunks. -/
theorem Sound.newPage (h : Sound g s q stored own loose) (isClass : IsClass g c) {page : Nat}
    (ok : PageOk g s.slabList c page) :
    let t := (s.zeroed page (pageLen g c)).addPage g c page
    Sound g t q stored own (chunkList g c page (g.perslab c) ++ loose) ∧ Supplied s t ∧
      ∀ r ∈ chunkList g c page (g.perslab c), Unused g t.slabList q own c r (t.item r) := by
  intro t
  have raw : ∀ r, page ≤ r ∧ r < page + pageLen g c → ∀ d, ¬ IsChunk g s.slabList d r := by
    rintro r inside d ⟨other, mem, n, small, rfl⟩
    have le := Pages.le d small
    have pos := g.size_pos d
    have isClass := (h.pages.isClass d other mem).2
    have := ok.2 d (by omega) other mem
    omega
  have item : ∀ r, t.item r =
      if page ≤ r ∧ r < page + pageLen g c then {} else s.item r := fun _ => rfl
  have linked : ∀ r, (t.item r).linked = (s.item r).linked := by
    intro r
    rw [item]
    split
    · next inside => exact ((h.items r).raw (raw r inside)).2.1.symm
    · rfl
  have used : ∀ r, (s.item r).refcount ≠ 0 → t.item r = s.item r := by
    intro r used
    rw [item, if_neg]
    exact fun inside => used ((h.items r).raw (raw r inside)).2.2.2
  have inUse : ∀ r, (s.item r).linked = true → t.item r = s.item r := by
    intro r linked
    refine used r ?_
    rw [(h.items r).refs, linked]
    exact Nat.succ_ne_zero _
  have added : ∀ d r, IsChunk g t.slabList d r →
      IsChunk g s.slabList d r ∨ d = c ∧ r ∈ chunkList g c page (g.perslab c) := by
    rintro d r ⟨other, mem, n, small, rfl⟩
    rcases mem_addPage.mp mem with mem | ⟨rfl, rfl⟩
    · exact .inl ⟨other, mem, n, small, rfl⟩
    · exact .inr ⟨rfl, mem_chunkList.mpr ⟨n, small, rfl⟩⟩
  refine ⟨⟨h.queues, h.tails, h.count, fun r => ?_, fun d => ?_, h.assoc, fun it => ?_,
    fun d r chunk => ?_, ?_, ?_, ?_⟩, ⟨used, linked, rfl, rfl, rfl, rfl, rfl, rfl⟩, fun r mem => ?_⟩
  · rw [item]
    split
    · next inside =>
      obtain ⟨off, unlinked, unheld, -⟩ := (h.items r).raw (raw r inside)
      refine ⟨fun d mem => absurd mem (off _), fun d mem => absurd mem (off _), fun d => ?_, ?_,
        ?_, ?_, ?_⟩
      · simp [off]
      · simp [unheld]
      · simp [List.count_eq_zero.mpr unheld]
      · simp
      · simp
    · exact (h.items r).mono fun d chunk => chunk.mono
  · refine List.Pairwise.imp_of_mem (fun {a b} left right le => ?_) (h.sorted d)
    rw [inUse a (((h.items a).lru d).mp left).1, inUse b (((h.items b).lru d).mp right).1]
    exact le
  · rw [h.table, linked]
    refine and_congr_right fun linked => ?_
    rw [inUse it.addr linked]
  · rw [linked, List.mem_append]
    rcases added d r chunk with old | ⟨-, new⟩
    · rcases h.chunks d r old with free | linked | held | transit
      · exact .inl free
      · exact .inr (.inl linked)
      · exact .inr (.inr (.inl held))
      · exact .inr (.inr (.inr (.inr transit)))
    · exact .inr (.inr (.inr (.inl new)))
  · intro d other mem
    rcases mem_addPage.mp mem with mem | ⟨rfl, -⟩
    · exact h.pages.isClass d other mem
    · exact isClass
  · intro d other mem
    rcases mem_addPage.mp mem with mem | ⟨-, rfl⟩
    · exact h.pages.pos d other mem
    · exact ok.1
  · intro d e left memLeft right memRight
    have beside : ∀ d, ∀ other ∈ s.slabList d,
        page + pageLen g c ≤ other ∨ other + pageLen g d ≤ page := by
      intro d other mem
      have le := (h.pages.isClass d other mem).2
      exact ok.2 d (by omega) other mem
    rcases mem_addPage.mp memLeft with memLeft | ⟨rfl, rfl⟩
    · rcases mem_addPage.mp memRight with memRight | ⟨rfl, rfl⟩
      · exact h.pages.apart d e left memLeft right memRight
      · exact .inr (beside d left memLeft).symm
    · rcases mem_addPage.mp memRight with memRight | ⟨rfl, rfl⟩
      · exact .inr (beside e right memRight)
      · exact .inl ⟨rfl, rfl⟩
  · obtain ⟨k, small, rfl⟩ := mem_chunkList.mp mem
    have inside : page ≤ page + k * g.size c ∧ page + k * g.size c < page + pageLen g c := by
      have le := Pages.le c small
      have pos := g.size_pos c
      omega
    obtain ⟨off, unlinked, unheld, -⟩ := (h.items _).raw (raw _ inside)
    rw [item, if_pos inside]
    exact ⟨off, rfl, unheld, rfl, isClass, page, mem_addPage.mpr (.inr ⟨rfl, rfl⟩), k, small, rfl⟩

variable (g) in
/-- There is no memory for another page of the class. -/
def NoPage (s : Cache) (c : Nat) (page : Option Nat) : Prop :=
  page = none ∨ g.memLimit ≠ 0 ∧ g.memLimit < s.memMalloced + pageLen g c ∧ s.slabList c ≠ []

theorem Sound.newslab (h : Sound g s q stored own loose) (isClass : IsClass g c)
    {page : Option Nat} (ok : ∀ ptr ∈ page, PageOk g s.slabList c ptr) :
    ∃ t more q', s.doSlabsNewslab g c page = some (t, more) ∧ Sound g t q' stored own loose ∧
      (∀ d, q' (.lru d) = q (.lru d)) ∧ Supplied s t ∧ (more = true → t.slCurr c ≠ 0) ∧
      (more = false → NoPage g s c page) := by
  rw [doSlabsNewslab.eq_def]
  split
  · next limit => exact ⟨s, false, q, rfl, h, fun _ => rfl, .refl s, by simp, fun _ => .inr limit⟩
  · cases page with
    | none => exact ⟨s, false, q, rfl, h, fun _ => rfl, .refl s, by simp, fun _ => .inl rfl⟩
    | some ptr =>
        obtain ⟨added, supplied, unused⟩ := h.newPage isClass (ok ptr rfl)
        obtain ⟨t, q', ran, sound, lru, supplied', count⟩ := added.split unused
        rw [split_addPage] at ran
        obtain ⟨u, cut, rfl⟩ := Option.map_eq_some_iff.mp ran
        refine ⟨_, true, q', ?_, sound, lru, supplied.trans supplied', fun _ => ?_, by simp⟩
        · change (splitSlabPageIntoFreelist g c (g.perslab c) ptr _).bind _ = _
          rw [cut]
          rfl
        · have pos := g.perslab_pos c
          omega

/-- A chunk of the class, or no memory. -/
theorem Sound.slabsAlloc (h : Sound g s q stored own loose) (isClass : IsClass g c)
    {page : Option Nat} (ok : ∀ ptr ∈ page, PageOk g s.slabList c ptr) :
    ∃ t it q', s.doSlabsAlloc g c page = some (t, it) ∧ (∀ d, q' (.lru d) = q (.lru d)) ∧
      Supplied s t ∧
      (it = 0 ∧ s.slCurr c = 0 ∧ NoPage g s c page ∧ Sound g t q' stored own loose ∨
        it ≠ 0 ∧ Sound g t q' stored own (it :: loose) ∧
          Unused g t.slabList q' own c it (t.item it)) := by
  have popped {t : Cache} {q' : Place → List Nat} (sound : Sound g t q' stored own loose)
      (lru : ∀ d, q' (.lru d) = q (.lru d)) (supplied : Supplied s t) (some : t.slCurr c ≠ 0) :
      ∃ u it q', (t.popSlot c, t.slots c) = (u, it) ∧ (∀ d, q' (.lru d) = q (.lru d)) ∧
        Supplied s u ∧
        (it = 0 ∧ s.slCurr c = 0 ∧ NoPage g s c page ∧ Sound g u q' stored own loose ∨
          it ≠ 0 ∧ Sound g u q' stored own (it :: loose) ∧
            Unused g u.slabList q' own c it (u.item it)) := by
    obtain ⟨q', sound', unused, lru'⟩ := sound.popSlot some
    refine ⟨_, _, q', rfl, fun d => (lru' d).trans (lru d), supplied.trans ?_, .inr ?_⟩
    · exact ⟨fun _ _ => rfl, fun _ => rfl, rfl, rfl, rfl, rfl, rfl, rfl⟩
    · exact ⟨unused.ne_zero sound.pages, sound', unused⟩
  have fine : ¬ (s.slCurr c ≠ 0 ∧ (s.slots c = 0 ∨ (s.item (s.slots c)).slabsClsid ≠ 0)) := by
    rintro ⟨some, bad⟩
    obtain ⟨q', -, unused, -⟩ := h.popSlot some
    exact bad.elim (unused.ne_zero h.pages) (· unused.clsid)
  rw [doSlabsAlloc, if_neg (by have := isClass.1; have := isClass.2; omega), if_neg fine]
  by_cases some : s.slCurr c ≠ 0
  · obtain ⟨u, it, q', same, rest⟩ := popped h (fun _ => rfl) (.refl s) some
    refine ⟨u, it, q', ?_, rest⟩
    rw [if_pos some, ← same]
    simp [some]
  · rw [if_neg some]
    obtain ⟨t, more, q', ran, sound, lru, supplied, pos, none_⟩ := h.newslab isClass ok
    rw [ran]
    cases more with
    | true =>
        obtain ⟨u, it, q', same, rest⟩ := popped sound lru supplied (pos rfl)
        refine ⟨u, it, q', ?_, rest⟩
        rw [← same]
        simp [pos rfl]
    | false =>
        refine ⟨t, 0, q', rfl, lru, supplied, .inl ⟨rfl, not_not.mp some, none_ rfl, sound⟩⟩

end Sound

end Cache

end Shang.Memcached

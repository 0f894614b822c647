import Shang.Memcached.Items

/-!
# do_item_alloc

A new item takes the chunk of an item at the tail of the LRU list that is past its time, or
one from `slabs.c`, or else, if there is no memory, that of the tail itself. Whether the lock
of an item at the tail can be had (`item_trylock`) comes from outside, and so does the answer
of `memory_allocate`. The `_nolock` functions that the source calls are those it has, without
the locks.
-/

namespace Shang.Memcached

open Lib Function

namespace Cache

variable (g : Settings)

/-! ## The program -/

/-- The number of characters that `%d` prints. -/
def decimalLen (i : Int) : Nat :=
  (Nat.toDigits 10 i.natAbs).length + if i < 0 then 1 else 0

/-- The length of the suffix `" %d %d\r\n"` that `item_make_header` prints, as `uint8_t`. -/
def suffixLen (flags : Int) (nbytes : Nat) : Nat :=
  (decimalLen flags + decimalLen (nbytes - 2) + 4) % 256

/-- The locals of `do_item_alloc` behind its loop; 0 is the null pointer. -/
structure Found where
  it : Nat
  tries : Nat
  search : Nat
  triedAlloc : Bool

/-- The test for an item whose chunk can be taken. -/
def stale (s : Cache) (it : Stritem) : Bool :=
  it.exptime ≠ 0 ∧ it.exptime < s.currentTime ∨
    it.time ≤ s.oldestLive ∧ s.oldestLive ≤ s.currentTime

/-- The item is unlinked, and its chunk is kept; the reference is the last one. -/
def reclaim (s : Cache) (search : Nat) (hv : UInt32) : Option Cache := do
  let s ← s.doItemUnlink g search hv
  let s := s.set search fun it => { it with slabsClsid := 0 }
  return s.refcountDecr search

/-- The item at the tail has no other reference. -/
def takeTail (id : Nat) (page : Option Nat) (tries search : Nat) (hv : UInt32) (s : Cache) :
    Option (Cache × Found) :=
  if s.stale (s.item search) then do
    let s ← s.reclaim g search hv
    return (s, ⟨search, tries, search, false⟩)
  else do
    let (s, it) ← s.doSlabsAlloc g id page
    if it ≠ 0 then return (s.refcountDecr search, ⟨it, tries, search, false⟩)
    else if g.evictToFree then
      let s ← s.reclaim g search hv
      return (s, ⟨search, tries, search, true⟩)
    else return (s.refcountDecr search, ⟨0, tries, search, true⟩)

/-- The loop of `do_item_alloc`, from `search` on; the first 0 is no more fuel. -/
def searchTail (id : Nat) (curHv : UInt32) (trylock : Nat → Bool) (page : Option Nat) :
    Nat → Nat → Nat → Nat → Cache → Option (Cache × Found)
  | 0, _, _, _, _ => none
  | fuel + 1, tries, reflocked, search, s =>
      if tries = 0 ∨ search = 0 then some (s, ⟨0, tries, search, false⟩)
      else
        let nextIt := s.prev search
        let it := s.item search
        -- the items of the crawler are not in this model, but their test is
        if it.nbytes = 0 ∧ it.key = [] ∧ it.linked ∧ !it.isCas ∧ !it.slabbed ∧ !it.fetched then
          searchTail id curHv trylock page fuel tries reflocked nextIt s
        else
          let hv := g.hash it.key
          if hv = curHv ∨ !trylock fuel then
            searchTail id curHv trylock page fuel (tries - 1) reflocked nextIt s
          else
            let s := s.refcountIncr search
            if (s.item search).refcount ≠ 2 then do
              let s ← s.doItemUpdate search
              let s := s.refcountDecr search
              let s ← if g.tailRepairTime ≠ 0 ∧
                  (s.item search).time + g.tailRepairTime < s.currentTime then
                (s.set search fun it => { it with refcount := 1 }).doItemUnlink g search hv
              else some s
              if reflocked - 1 < 1 then return (s, ⟨0, tries + 1, search, false⟩)
              else searchTail id curHv trylock page fuel tries (reflocked - 1) nextIt s
            else takeTail g id page tries search hv s

/-- What is written into a new item; what the data are before they are read in does not
matter. -/
def newContent (key : List UInt8) (flags : Int) (exptime nbytes : Nat) : Content where
  key := key
  flags := flags
  exptime := exptime
  nbytes := nbytes
  nsuffix := suffixLen flags nbytes
  isCas := g.useCas
  data := List.replicate nbytes 0

/-- A new item in its chunk, with the reference of its owner. -/
def initItem (it : Stritem) (id : Nat) (content : Content) : Stritem :=
  { content with time := it.time, refcount := 1, slabsClsid := id }

/-- The size that `item_make_header` computes, with the room for a cas id. -/
def newTotal (key : List UInt8) (flags : Int) (nbytes : Nat) : Nat :=
  sizeofItem + (key.length + 1) + suffixLen flags nbytes + nbytes + if g.useCas then 8 else 0

/-- `do_item_alloc`; 0 is the null pointer, and `page` answers for each class. -/
def doItemAlloc (s : Cache) (key : List UInt8) (flags : Int) (exptime nbytes : Nat)
    (curHv : UInt32) (trylock : Nat → Bool) (page : Nat → Option Nat) : Option (Cache × Nat) :=
  let id := slabsClsid g (newTotal g key flags nbytes)
  if id = 0 then some (s, 0)
  else do
    let (s, found) ← searchTail g id curHv trylock (page id) 1006 5 1000 (s.tails id) s
    let (s, it) ← if !found.triedAlloc ∧ (found.tries = 0 ∨ found.search = 0) then
      s.doSlabsAlloc g id (page id)
    else some (s, found.it)
    if it = 0 then return (s, 0)
    else if (s.item it).slabsClsid ≠ 0 ∨ it = s.heads id then none
    else return ({ s.set it fun h => initItem h id (newContent g key flags exptime nbytes) with
      next := update s.next it 0, prev := update s.prev it 0 }, it)

/-! ## What it does to the cache -/

variable {g} {s t m : Cache} {q q' : Place → List Nat} {stored : List Item} {own : List Nat}
  {loose off fresh fresh' : List Nat} {id c p r : Nat} {page : Option Nat}

variable (g) in
/-- There is no chunk of the class, and no memory for another page. -/
def NoChunk (s : Cache) (id : Nat) (page : Option Nat) : Prop :=
  s.slCurr id = 0 ∧ NoPage g s id page

variable (g) in
/-- The items `off` have lost their places, since they were dead or since there was no memory, and
the items `fresh`, which were held, may have the time of now. -/
structure Moved (own : List Nat) (id : Nat) (page : Option Nat) (off fresh : List Nat)
    (s t : Cache) : Prop where
  content : ∀ r ∉ off, (s.item r).linked = true ∨ r ∈ own →
    (t.item r).toContent = (s.item r).toContent
  linked : ∀ r, (t.item r).linked = true ↔ (s.item r).linked = true ∧ r ∉ off
  time : ∀ r, (s.item r).linked = true → r ∉ off →
    (t.item r).time = (s.item r).time ∨ r ∈ fresh ∧ (t.item r).time = s.currentTime
  off : ∀ r ∈ off, (s.item r).linked = true ∧ r ∉ own ∧
    (s.dead (s.item r) = true ∨ g.evictToFree = true ∧ NoChunk g s id page)
  fresh : fresh ⊆ own
  thread : t.assoc.thread = s.assoc.thread
  casId : t.casId = s.casId
  currentTime : t.currentTime = s.currentTime
  oldestLive : t.oldestLive = s.oldestLive

/-- Nothing but times has changed. -/
theorem Kept.moved (kept : Kept [] fresh s t) (held : fresh ⊆ own) :
    Moved g own id page [] fresh s t where
  content r _ _ := kept.content r
  linked := kept.linked
  time r _ _ := by
    by_cases again : r ∈ fresh
    · exact .inr ⟨again, kept.fresh r again⟩
    · exact .inl (kept.time r again)
  off := by simp
  fresh := held
  thread := kept.thread
  casId := kept.casId
  currentTime := kept.currentTime
  oldestLive := kept.oldestLive

theorem dead_of_kept (h : Sound g s q stored own loose) (kept : Kept [] fresh s m)
    (linked : (s.item r).linked = true) (dead_ : m.dead (m.item r) = true) :
    s.dead (s.item r) = true := by
  have exptime : (m.item r).exptime = (s.item r).exptime := congrArg (·.exptime) (kept.content r)
  have late := ((h.items r).time linked).2
  rw [dead, Bool.or_eq_true, flushed, expired, decide_eq_true_eq, decide_eq_true_eq,
    kept.currentTime, kept.oldestLive, exptime] at dead_
  rw [dead, Bool.or_eq_true, flushed, expired, decide_eq_true_eq, decide_eq_true_eq]
  refine dead_.imp_left fun before => ⟨before.1, before.2.1, ?_⟩
  have old := before.2.2
  by_cases again : r ∈ fresh
  · rw [kept.fresh r again] at old
    omega
  · rwa [kept.time r again] at old

theorem stale_dead (h : Sound g s q stored own loose) (linked : (s.item r).linked = true)
    (old : s.stale (s.item r) = true) : s.dead (s.item r) = true := by
  have early := ((h.items r).time linked).1
  rw [stale, decide_eq_true_eq] at old
  rw [dead, Bool.or_eq_true, flushed, expired, decide_eq_true_eq, decide_eq_true_eq]
  omega

/-- First only times change, and then the cache is searched. -/
theorem Moved.after (h : Sound g s q stored own loose) (kept : Kept [] fresh' s m)
    (held : fresh' ⊆ own) (curr : m.slCurr id = s.slCurr id)
    (rest : Moved g own id page off fresh m t) : Moved g own id page off (fresh' ++ fresh) s t where
  content r out used := by
    rw [rest.content r out (used.imp_left fun linked => (kept.linked r).mpr ⟨linked, by simp⟩),
      kept.content]
  linked r := by
    rw [rest.linked, kept.linked]
    simp
  time r linked out := by
    rw [List.mem_append]
    rcases rest.time r ((kept.linked r).mpr ⟨linked, by simp⟩) out with same | ⟨again, now⟩
    · by_cases before : r ∈ fresh'
      · exact .inr ⟨.inl before, same.trans (kept.fresh r before)⟩
      · exact .inl (same.trans (kept.time r before))
    · exact .inr ⟨.inr again, now.trans kept.currentTime⟩
  off r mem := by
    obtain ⟨linked, unheld, why⟩ := rest.off r mem
    have linked := ((kept.linked r).mp linked).1
    refine ⟨linked, unheld, why.imp (dead_of_kept h kept linked) fun full =>
      ⟨full.1, curr ▸ full.2.1, ?_⟩⟩
    have none_ := full.2.2
    rwa [NoPage, kept.memMalloced, kept.slabList] at none_
  fresh := List.append_subset.mpr ⟨held, rest.fresh⟩
  thread := rest.thread.trans kept.thread
  casId := rest.casId.trans kept.casId
  currentTime := rest.currentTime.trans kept.currentTime
  oldestLive := rest.oldestLive.trans kept.oldestLive

/-- An item that the cache has and nobody else holds is unlinked, and its chunk kept. -/
theorem Sound.reclaim (h : Sound g s q stored (p :: own) loose)
    (linked : (s.item p).linked = true) (unheld : p ∉ own) (out : ¬ s.assoc.thread.Expands) :
    ∃ t q' stored', s.reclaim g p (g.hash (s.item p).key) = some t ∧
      Sound g t q' stored' own (p :: loose) ∧
      Unused g t.slabList q' own (s.item p).slabsClsid p (t.item p) ∧ Kept [p] [] s t := by
  obtain ⟨t, q', ran, sound, -, kept⟩ := h.unlink linked out
  have unlinked : (t.item p).linked = false := by
    rw [Bool.eq_false_iff]
    exact fun there => ((kept.linked p).mp there).2 (List.mem_singleton.mpr rfl)
  have before := (h.items p).used (.inl linked)
  have behind := (sound.items p).used (.inr List.mem_cons_self)
  have class_ : (t.item p).slabsClsid = (s.item p).slabsClsid := by
    have chunk := behind.chunk
    rw [kept.slabList] at chunk
    exact chunk.unique h.pages before.chunk
  obtain ⟨dropped, unused, -⟩ := sound.drop unlinked unheld
  have same : (t.set p fun it => { it with slabsClsid := 0 }).refcountDecr p =
      (t.refcountDecr p).set p fun it => { it with slabsClsid := 0 } := by
    simp [refcountDecr, Cache.set]
  rw [class_] at unused
  refine ⟨_, q', _, ?_, dropped, unused, (kept.trans .decr).trans (.set rfl rfl rfl)⟩
  rw [Cache.reclaim, ran, ← same]
  rfl

/-- What was found: nothing, or a chunk of the class. -/
def Gives (g : Settings) (own loose : List Nat) (id : Nat) (t : Cache) (it : Nat) : Prop :=
  ∃ q stored, it = 0 ∧ Sound g t q stored own loose ∨
    it ≠ 0 ∧ Sound g t q stored own (it :: loose) ∧ Unused g t.slabList q own id it (t.item it)

theorem Supplied.moved {own' : List Nat} (h : Sound g s q stored own' loose) (sub : own ⊆ own')
    (supplied : Supplied s t) : Moved g own id page [] [] s t := by
  have same : ∀ r, (s.item r).linked = true ∨ r ∈ own → t.item r = s.item r := by
    intro r used
    refine supplied.item r ?_
    rw [(h.items r).refs]
    rcases used with linked | held
    · rw [linked]
      exact Nat.succ_ne_zero _
    · have := List.count_pos_iff.mpr (sub held)
      omega
  exact {
    content := fun r _ used => congrArg (·.toContent) (same r used)
    linked := fun r => by simp [supplied.linked]
    time := fun r linked _ => .inl (congrArg (·.time) (same r (.inl linked)))
    off := by simp
    fresh := List.nil_subset _
    thread := congrArg (·.thread) supplied.assoc
    casId := supplied.casId
    currentTime := supplied.currentTime
    oldestLive := supplied.oldestLive }

/-- An item that nobody holds leaves the cache for a reason. -/
theorem Moved.leave (first : Moved g own id page [] [] s m) (kept : Kept [p] [] m t)
    (linked : (s.item p).linked = true) (unheld : p ∉ own)
    (why : s.dead (s.item p) = true ∨ g.evictToFree = true ∧ NoChunk g s id page) :
    Moved g own id page [p] [] s t where
  content r _ used := (kept.content r).trans (first.content r List.not_mem_nil used)
  linked r := by
    rw [kept.linked, first.linked]
    simp
  time r there _ := by
    rw [kept.time r List.not_mem_nil]
    exact first.time r there List.not_mem_nil
  off r mem := by
    rw [List.mem_singleton.mp mem]
    exact ⟨linked, unheld, why⟩
  fresh := List.nil_subset _
  thread := kept.thread.trans first.thread
  casId := kept.casId.trans first.casId
  currentTime := kept.currentTime.trans first.currentTime
  oldestLive := kept.oldestLive.trans first.oldestLive

theorem Moved.kept (first : Moved g own id page off fresh s m) (kept : Kept [] [] m t) :
    Moved g own id page off fresh s t where
  content r out used := (kept.content r).trans (first.content r out used)
  linked r := by
    rw [kept.linked, first.linked]
    simp
  time r there out := by
    rw [kept.time r List.not_mem_nil]
    exact first.time r there out
  off := first.off
  fresh := first.fresh
  thread := kept.thread.trans first.thread
  casId := kept.casId.trans first.casId
  currentTime := kept.currentTime.trans first.currentTime
  oldestLive := kept.oldestLive.trans first.oldestLive

/-- The item at the tail makes way, or a chunk comes from `slabs.c`, or there is none. -/
theorem Sound.takeTail (h : Sound g s q stored (p :: own) loose) (tries : Nat)
    (linked : (s.item p).linked = true) (class_ : (s.item p).slabsClsid = id) (unheld : p ∉ own)
    (out : ¬ s.assoc.thread.Expands) (isClass : IsClass g id)
    (ok : ∀ ptr ∈ page, PageOk g s.slabList id ptr) :
    ∃ t it tried off, Cache.takeTail g id page tries p (g.hash (s.item p).key) s =
        some (t, ⟨it, tries, p, tried⟩) ∧
      Moved g own id page off [] s t ∧ Gives g own loose id t it ∧
      (it = 0 → off = [] ∧ tried = true) := by
  have some_ := h.ne_zero (.inl linked)
  rw [Cache.takeTail]
  cases old : s.stale (s.item p) with
  | true =>
      obtain ⟨t, q', stored', ran, sound, unused, kept⟩ := h.reclaim linked unheld out
      rw [class_] at unused
      refine ⟨t, p, false, [p], ?_, ?_, ⟨q', stored', .inr ⟨some_, sound, unused⟩⟩,
        fun zero => absurd zero some_⟩
      · rw [if_pos rfl, ran]
        rfl
      · exact ((Kept.refl s).moved (List.nil_subset _)).leave kept linked unheld
          (.inl (stale_dead h linked old))
  | false =>
      obtain ⟨t, it, q', ran, lru, supplied, none_ | ⟨found, sound, unused⟩⟩ :=
        h.slabsAlloc isClass ok
      · obtain ⟨rfl, zero, noPage, sound⟩ := none_
        have linked' : (t.item p).linked = true := (supplied.linked p).trans linked
        have moved : Moved g own id page [] [] s t :=
          supplied.moved h (List.subset_cons_self p own)
        cases evict : g.evictToFree with
        | true =>
            have out' : ¬ t.assoc.thread.Expands := by rwa [supplied.assoc]
            have same := supplied.item p (by
              rw [(h.items p).refs, linked]
              exact Nat.succ_ne_zero _)
            obtain ⟨u, q'', stored', ran', sound', unused, kept⟩ :=
              sound.reclaim linked' unheld out'
            rw [same, class_] at unused
            rw [same] at ran'
            refine ⟨u, p, true, [p], ?_, ?_, ⟨q'', stored', .inr ⟨some_, sound', unused⟩⟩,
              fun zero => absurd zero some_⟩
            · simp only [ran, ran', Option.bind_eq_bind, Option.bind_some, Bool.false_eq_true,
                if_false, ne_eq, not_true_eq_false, if_true]
              rfl
            · exact moved.leave kept linked unheld (.inr ⟨evict, zero, noPage⟩)
        | false =>
            refine ⟨t.refcountDecr p, 0, true, [], ?_, moved.kept .decr,
              ⟨q', stored, .inl ⟨rfl, sound.decr (.inl linked')⟩⟩, fun _ => ⟨rfl, rfl⟩⟩
            simp only [ran, Option.bind_eq_bind, Option.bind_some, Bool.false_eq_true, if_false,
              ne_eq, not_true_eq_false]
            rfl
      · have linked' : (t.item p).linked = true := (supplied.linked p).trans linked
        have moved : Moved g own id page [] [] s t :=
          supplied.moved h (List.subset_cons_self p own)
        have other : it ≠ p := fun same => unused.own (same ▸ List.mem_cons_self)
        refine ⟨t.refcountDecr p, it, false, [], ?_, moved.kept .decr, ⟨q', stored, .inr ⟨found,
          sound.decr (.inl linked'), ?_⟩⟩, fun zero => absurd zero found⟩
        · simp only [ran, Option.bind_eq_bind, Option.bind_some, Bool.false_eq_true, if_false,
            ne_eq, found, not_false_eq_true, if_true]
          rfl
        · rw [refcountDecr, set_item_of_ne other]
          exact { unused with own := fun held => unused.own (List.mem_cons_of_mem p held) }

theorem not_mem_own_of_refcount (h : Sound g s q stored (p :: own) loose)
    (linked : (s.item p).linked = true) : (s.item p).refcount = 2 ↔ p ∉ own := by
  rw [(h.items p).refs, linked, List.count_cons_self, ← List.count_eq_zero]
  change _ + 1 + 1 = 2 ↔ _
  omega

/-- The loop looks at no more items than `tries` and `tries_lrutail_reflocked` allow. -/
theorem Sound.searchTail {fuel tries reflocked search : Nat} (h : Sound g s q stored own loose)
    (curHv : UInt32) (trylock : Nat → Bool) (out : ¬ s.assoc.thread.Expands)
    (few : ∀ p, own.count p + 2 < 65536) (now : 0 < s.currentTime) (norepair : g.tailRepairTime = 0)
    (isClass : IsClass g id) (ok : ∀ ptr ∈ page, PageOk g s.slabList id ptr)
    (here : search = 0 ∨ search ∈ q (.lru id)) (pos : 0 < reflocked)
    (enough : tries + reflocked ≤ fuel) :
    ∃ t found off fresh,
      Cache.searchTail g id curHv trylock page fuel tries reflocked search s = some (t, found) ∧
      Moved g own id page off fresh s t ∧ Gives g own loose id t found.it ∧
      (found.it = 0 → off = [] ∧ (found.triedAlloc = false → t.slabList = s.slabList)) ∧
      (found.it ≠ 0 → found.tries ≠ 0 ∧ found.search ≠ 0) := by
  induction fuel generalizing s q tries reflocked search with
  | zero => omega
  | succ fuel ih =>
      rw [Cache.searchTail]
      by_cases ended : tries = 0 ∨ search = 0
      · rw [if_pos ended]
        exact ⟨s, _, [], [], rfl, (Kept.refl s).moved (List.nil_subset _),
          ⟨q, stored, .inl ⟨rfl, h⟩⟩, fun _ => ⟨rfl, fun _ => rfl⟩, fun some => absurd rfl some⟩
      · obtain ⟨more, some_⟩ := not_or.mp ended
        have mem := here.resolve_left some_
        obtain ⟨linked, class_⟩ := ((h.items search).lru id).mp mem
        have inUse := (h.items search).used (.inl linked)
        have bytes := inUse.nbytes
        have back : s.prev search = 0 ∨ s.prev search ∈ q (.lru id) := by
          obtain ⟨l₁, l₂, list, -, prev, -⟩ := h.queues.around mem
          rw [prev, list]
          rcases List.eq_nil_or_concat l₁ with rfl | ⟨l, a, rfl⟩
          · exact .inl rfl
          · exact .inr (by simp)
        rw [if_neg ended, if_neg (by omega)]
        by_cases skip : g.hash (s.item search).key = curHv ∨ !trylock fuel
        · rw [if_pos skip]
          exact ih h out now ok back pos (by omega)
        · rw [if_neg skip]
          have counted := h.incr (.inl linked) (few search)
          have kept : Kept [] [] s (s.refcountIncr search) := .incr
          have linked' : ((s.refcountIncr search).item search).linked = true :=
            (kept.linked _).mpr ⟨linked, List.not_mem_nil⟩
          have clsid : ((s.refcountIncr search).item search).slabsClsid = id :=
            (set_item_of_eq (·.slabsClsid) rfl).trans class_
          have key : ((s.refcountIncr search).item search).key = (s.item search).key :=
            congrArg (·.key) (kept.content search)
          by_cases free : ((s.refcountIncr search).item search).refcount = 2
          · have unheld := (not_mem_own_of_refcount counted linked').mp free
            obtain ⟨t, it, tried, off, ran, moved, gives, none_⟩ :=
              counted.takeTail tries linked' clsid unheld out isClass ok
            rw [key] at ran
            dsimp only
            rw [if_neg (not_not.mpr free), ran]
            refine ⟨t, _, off, [], rfl, moved.after h kept (List.nil_subset _) rfl, gives,
              fun zero => ?_, fun _ => ⟨more, some_⟩⟩
            obtain ⟨rfl, rfl⟩ := none_ zero
            exact ⟨rfl, fun absurd_ => by cases absurd_⟩
          · have held := not_not.mp (mt (not_mem_own_of_refcount counted linked').mpr free)
            obtain ⟨m, q', fresh, ran, sound, lru, frees, new, refreshed⟩ :=
              counted.refresh (p := search) now
            have gone := sound.decr (.inr held)
            have all : Kept [] fresh s (m.refcountDecr search) := by
              simpa using (kept.trans refreshed).trans .decr
            have sub : fresh ⊆ own := fun r mem => by
              rw [List.mem_singleton.mp (new mem)]
              exact held
            have curr : (m.refcountDecr search).slCurr id = s.slCurr id := by
              rw [gone.count, frees, h.count]
            dsimp only
            rw [if_pos free, ran, Option.bind_eq_bind, Option.bind_some,
              if_neg (by simp [norepair]), Option.bind_some]
            by_cases last : reflocked - 1 < 1
            · rw [if_pos last]
              refine ⟨_, _, [], fresh, rfl, all.moved sub, ⟨q', stored, .inl ⟨rfl, gone⟩⟩,
                fun _ => ⟨rfl, fun _ => all.slabList⟩, fun some => absurd rfl some⟩
            · rw [if_neg last]
              obtain ⟨t, found, off, fresh', ran', moved, gives, none_, some'⟩ :=
                ih gone (all.thread ▸ out) (all.currentTime ▸ now) (all.slabList ▸ ok)
                  (back.imp_right (lru id _).mpr) (show 0 < reflocked - 1 by omega)
                  (show tries + (reflocked - 1) ≤ fuel by omega)
              refine ⟨t, found, off, fresh ++ fresh', ran', moved.after h all sub curr, gives,
                fun zero => ?_, some'⟩
              obtain ⟨nothing, slabs⟩ := none_ zero
              exact ⟨nothing, fun tried => (slabs tried).trans all.slabList⟩

theorem slabsClsidFrom_spec {size left res : Nat} (sum : res + left = g.powerLargest)
    (some : slabsClsidFrom g size left res ≠ 0) :
    res ≤ slabsClsidFrom g size left res ∧ slabsClsidFrom g size left res ≤ g.powerLargest ∧
      size ≤ g.size (slabsClsidFrom g size left res) := by
  induction left generalizing res with
  | zero =>
      rw [slabsClsidFrom] at some ⊢
      split at some
      · exact absurd rfl some
      · next fits =>
        rw [if_neg fits]
        exact ⟨Nat.le_refl _, by omega, Nat.le_of_not_lt fits⟩
  | succ left ih =>
      rw [slabsClsidFrom] at some ⊢
      split at some
      · next small =>
        rw [if_pos small]
        have rest := ih (by omega) some
        exact ⟨by omega, rest.2⟩
      · next fits =>
        rw [if_neg fits]
        exact ⟨Nat.le_refl _, by omega, Nat.le_of_not_lt fits⟩

/-- The class of a size has room for it. -/
theorem slabsClsid_spec {size : Nat} (some : slabsClsid g size ≠ 0) :
    IsClass g (slabsClsid g size) ∧ size ≤ g.size (slabsClsid g size) := by
  rw [slabsClsid] at some ⊢
  have pos := g.power_pos
  split at some
  · exact absurd rfl some
  · next other =>
    rw [if_neg other]
    obtain ⟨le, le', fits⟩ := slabsClsidFrom_spec (by omega) some
    exact ⟨⟨by omega, le'⟩, fits⟩

/-- A chunk becomes an item that its owner has the only reference to. -/
theorem Sound.init {it : Nat} {content : Content} (h : Sound g s q stored own (it :: loose))
    (unused : Unused g s.slabList q own id it (s.item it)) (fits : content.ntotal ≤ g.size id)
    (data : content.data.length = content.nbytes) (bytes : 2 ≤ content.nbytes)
    (isCas : content.isCas = g.useCas) :
    let t : Cache := { s.set it fun h => initItem h id content with
      next := update s.next it 0, prev := update s.prev it 0 }
    Sound g t q stored (it :: own) loose := by
  intro t
  have item : t.item it = initItem (s.item it) id content := update_self _ _ _
  have others : ∀ r ≠ it, t.item r = s.item r := fun r other => update_of_ne other _ _
  have linkedSame : ∀ r, (t.item r).linked = (s.item r).linked := by
    intro r
    rcases eq_or_ne r it with rfl | other
    · rw [item, unused.linked]
      rfl
    · rw [others r other]
  have inLru : ∀ d, ∀ r ∈ q (.lru d), r ≠ it := fun d r mem =>
    ne_of_mem_of_not_mem mem (unused.off _)
  refine ⟨h.queues.unlinked unused.off 0 0, h.tails, h.count, fun r => ?_, fun d => ?_, h.assoc,
    fun it' => ?_, fun d r chunk => ?_, h.pages⟩
  · rcases eq_or_ne r it with rfl | other
    · rw [item]
      refine ⟨fun d mem => absurd mem (unused.off _), fun d mem => absurd mem (unused.off _),
        fun d => ?_, fun _ => ?_, ?_, ?_, ?_⟩
      · simp [unused.off, initItem]
      · exact ⟨rfl, unused.isClass, unused.chunk, fits, data, bytes, isCas⟩
      · rw [List.count_cons_self, List.count_eq_zero.mpr unused.own]
        rfl
      · exact show 1 < 65536 by decide
      · simp [initItem]
    · rw [others r other]
      exact (h.items r).congr (fun _ => Iff.rfl) (List.count_cons_of_ne other.symm)
  · refine List.Pairwise.imp_of_mem (fun {a b} left right le => ?_) (h.sorted d)
    rw [others a (inLru d a left), others b (inLru d b right)]
    exact le
  · rw [h.table, linkedSame]
    refine and_congr_right fun linked => ?_
    rw [others]
    intro same
    rw [same, unused.linked] at linked
    cases linked
  · rw [linkedSame, List.mem_cons]
    rcases h.chunks d r chunk with free | linked | held | transit
    · exact .inl free
    · exact .inr (.inl linked)
    · exact .inr (.inr (.inl (.inr held)))
    · rcases List.mem_cons.mp transit with rfl | transit
      · exact .inr (.inr (.inl (.inl rfl)))
      · exact .inr (.inr (.inr transit))

/-- `slabs.c` is asked once more behind the loop. -/
theorem Moved.supply {u : Cache} {own' : List Nat} (first : Moved g own id page [] fresh s t)
    (h : Sound g t q stored own' loose) (sub : own ⊆ own') (supplied : Supplied t u) :
    Moved g own id page [] fresh s u := by
  have second : Moved g own id page [] [] t u := supplied.moved h sub
  exact {
    content := fun r out used => (second.content r out
      (used.imp_left fun linked => (first.linked r).mpr ⟨linked, out⟩)).trans
      (first.content r out used)
    linked := fun r => by
      rw [second.linked, first.linked]
      simp
    time := fun r linked out => by
      rcases second.time r ((first.linked r).mpr ⟨linked, out⟩) out with same | ⟨none_, -⟩
      · rw [same]
        exact first.time r linked out
      · cases none_
    off := by simp
    fresh := first.fresh
    thread := second.thread.trans first.thread
    casId := second.casId.trans first.casId
    currentTime := second.currentTime.trans first.currentTime
    oldestLive := second.oldestLive.trans first.oldestLive }

/-- The chunk that was found is of no item that is left. -/
theorem Moved.init {it : Nat} {t u : Cache} (first : Moved g own id page off fresh s t)
    (unlinked : (t.item it).linked = false) (unheld : it ∉ own)
    (others : ∀ r ≠ it, u.item r = t.item r) (linked : (u.item it).linked = false)
    (rest : u.assoc = t.assoc ∧ u.casId = t.casId ∧ u.currentTime = t.currentTime ∧
      u.oldestLive = t.oldestLive) : Moved g own id page off fresh s u := by
  have apart : ∀ r ∉ off, (s.item r).linked = true ∨ r ∈ own → r ≠ it := by
    rintro r out used rfl
    rcases used with there | held
    · rw [(first.linked r).mpr ⟨there, out⟩] at unlinked
      cases unlinked
    · exact unheld held
  have linkedSame : ∀ r, (u.item r).linked = (t.item r).linked := by
    intro r
    rcases eq_or_ne r it with rfl | other
    · rw [linked, unlinked]
    · rw [others r other]
  obtain ⟨assoc, casId, clock, oldest⟩ := rest
  exact {
    content := fun r out used => by rw [others r (apart r out used), first.content r out used]
    linked := fun r => by rw [linkedSame, first.linked]
    time := fun r there out => by
      rw [others r (apart r out (.inl there))]
      exact first.time r there out
    off := first.off
    fresh := first.fresh
    thread := (congrArg (·.thread) assoc).trans first.thread
    casId := casId.trans first.casId
    currentTime := clock.trans first.currentTime
    oldestLive := oldest.trans first.oldestLive }

/-- `do_item_alloc` ends, and hands out a chunk that nobody else uses, or none. -/
theorem Sound.alloc (h : Sound g s q stored own loose) (key : List UInt8) (flags : Int)
    (exptime nbytes : Nat) (curHv : UInt32) (trylock : Nat → Bool) (page : Nat → Option Nat)
    (out : ¬ s.assoc.thread.Expands)
    (few : ∀ p, own.count p + 2 < 65536) (now : 0 < s.currentTime) (norepair : g.tailRepairTime = 0)
    (bytes : 2 ≤ nbytes) (class_ : slabsClsid g (newTotal g key flags nbytes) = id)
    (ok : ∀ ptr ∈ page id, PageOk g s.slabList id ptr) :
    ∃ t it off fresh, s.doItemAlloc g key flags exptime nbytes curHv trylock page = some (t, it) ∧
      Moved g own id (page id) off fresh s t ∧
      (it = 0 ∧ off = [] ∧ (∃ q stored, Sound g t q stored own loose) ∨
        it ≠ 0 ∧ (∃ q stored, Sound g t q stored (it :: own) loose) ∧ it ∉ own ∧
          (t.item it).linked = false ∧
          (t.item it).toContent = newContent g key flags exptime nbytes) := by
  rw [doItemAlloc, class_]
  by_cases none_ : id = 0
  · rw [if_pos none_]
    exact ⟨s, 0, [], [], rfl, (Kept.refl s).moved (List.nil_subset _),
      .inl ⟨rfl, rfl, q, stored, h⟩⟩
  · rw [if_neg none_]
    obtain ⟨isClass, fits⟩ := slabsClsid_spec (class_ ▸ none_)
    rw [class_] at isClass fits
    have last : s.tails id = 0 ∨ s.tails id ∈ q (.lru id) := by
      rw [h.tails]
      obtain ⟨l, same⟩ := exists_getLastD 0 (q (.lru id))
      have mem : (q (.lru id)).getLastD 0 ∈ 0 :: q (.lru id) := by
        rw [same]
        exact List.mem_append_right _ (List.mem_singleton.mpr rfl)
      exact List.mem_cons.mp mem
    obtain ⟨t, found, off, fresh, ran, moved, gives, nothing, some_⟩ :=
      h.searchTail curHv trylock out few now norepair isClass ok last (show 0 < 1000 by decide)
        (show 5 + 1000 ≤ 1006 by decide)
    have finish : ∀ u it off fresh, Moved g own id (page id) off fresh s u →
        Gives g own loose id u it → (it = 0 → off = []) → ∃ t it' off fresh,
        (if it = 0 then some (u, 0)
          else if (u.item it).slabsClsid ≠ 0 ∨ it = u.heads id then none
          else some ({ u.set it fun h => initItem h id (newContent g key flags exptime nbytes) with
            next := update u.next it 0, prev := update u.prev it 0 }, it)) = some (t, it') ∧
        Moved g own id (page id) off fresh s t ∧
        (it' = 0 ∧ off = [] ∧ (∃ q stored, Sound g t q stored own loose) ∨
          it' ≠ 0 ∧ (∃ q stored, Sound g t q stored (it' :: own) loose) ∧ it' ∉ own ∧
            (t.item it').linked = false ∧
            (t.item it').toContent = newContent g key flags exptime nbytes) := by
      rintro u it off fresh moved ⟨q', stored', ⟨rfl, sound⟩ | ⟨found, sound, unused⟩⟩ nothing
      · rw [if_pos rfl]
        exact ⟨u, 0, off, fresh, rfl, moved, .inl ⟨rfl, nothing rfl, q', stored', sound⟩⟩
      · have ends := sound.ends (unused.off (.lru id)) found
        have room : (newContent g key flags exptime nbytes).ntotal ≤ g.size id := fits
        have made := sound.init unused room (List.length_replicate ..) bytes rfl
        rw [if_neg found, if_neg (by simp [unused.clsid, ends.1])]
        have item := update_self it
          (initItem (u.item it) id (newContent g key flags exptime nbytes)) u.item
        refine ⟨_, it, off, fresh, rfl, moved.init unused.linked unused.own
          (fun r other => update_of_ne other _ _) (congrArg (·.linked) item) ⟨rfl, rfl, rfl, rfl⟩,
          .inr ⟨found, ⟨q', stored', made⟩, unused.own, congrArg (·.linked) item,
            congrArg (·.toContent) item⟩⟩
    rw [ran, Option.bind_eq_bind, Option.bind_some]
    by_cases more : !found.triedAlloc ∧ (found.tries = 0 ∨ found.search = 0)
    · have zero : found.it = 0 := by
        by_contra some
        obtain ⟨tries, search⟩ := some_ some
        exact more.2.elim tries search
      obtain ⟨rfl, slabs⟩ := nothing zero
      have untried : found.triedAlloc = false := by simpa using more.1
      obtain ⟨q', stored', ⟨-, sound⟩ | ⟨some, -⟩⟩ := gives
      · obtain ⟨u, it, q'', ran', -, supplied, gives'⟩ :=
          sound.slabsAlloc isClass (slabs untried ▸ ok)
        obtain ⟨t', it', off', fresh', rest⟩ := finish u it [] fresh
          (moved.supply sound (List.Subset.refl _) supplied)
          ⟨q'', stored', gives'.imp_left fun none_ => ⟨none_.1, none_.2.2.2⟩⟩ fun _ => rfl
        refine ⟨t', it', off', fresh', ?_, rest.2⟩
        simp only [more, ran']
        exact rest.1
      · exact absurd zero some
    · obtain ⟨t', it', off', fresh', rest⟩ := finish t found.it off fresh moved gives
        fun zero => (nothing zero).1
      refine ⟨t', it', off', fresh', ?_, rest.2⟩
      simp only [if_neg more]
      exact rest.1

end Cache

end Shang.Memcached

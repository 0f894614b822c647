import Shang.Lib.Chains
import Shang.Lib.Run
import Mathlib.Data.List.TakeDrop
import Mathlib.Data.Nat.Bitwise

/-!
# The hash table of memcached

`assoc.c`: a table of chains that grows while it is in use. `assoc_expand` makes a
table of twice the size; from then on the maintenance thread moves one bucket after
the other out of the old table, and `expand_bucket` says how far it has come. The
other threads look for a key in the old table or in the new one.

Insertions and deletions hold `cache_lock`, and so does the thread while it moves
buckets or is in `assoc_expand`; `assoc_find` does not. A section under the locks is
one step, but the assignments of `assoc_expand` are steps of their own, since a
search may come between them. `hash` and the answer of `calloc` come from outside.
A step that would use a place outside a table, or fail an assertion, does not exist.
-/

namespace Shang.Memcached

open Lib Function

/-! ## The program -/

/-- An item: its key, and the address that stands for it. -/
structure Item where
  key : List UInt8
  addr : Nat
  deriving DecidableEq

/-- Where the maintenance thread is. `saved` to `flagged` are behind the assignments of
`assoc_expand`: `old_hashtable`, `primary_hashtable` with a table or with the null pointer,
`hashpower` and `expanding`. -/
inductive Thread
  | bulk
  | park
  | waiting
  | woken
  | saved
  | failed
  | zeroed
  | grown
  | flagged
  deriving DecidableEq

/-- The thread is in `assoc_expand`, and has `cache_lock`. -/
def Thread.Expands : Thread → Prop
  | saved | failed | zeroed | grown | flagged => True
  | _ => False

instance : DecidablePred Thread.Expands
  | .saved | .failed | .zeroed | .grown | .flagged => isTrue trivial
  | .bulk | .park | .waiting | .woken => isFalse id

structure Assoc where
  hashpower : Nat
  primaryHashtable : Table Item
  oldHashtable : Table Item
  expanding : Bool
  startedExpanding : Bool
  expandBucket : Nat
  hashItems : UInt32
  thread : Thread

def hashsize (n : Nat) : Nat := 1 <<< n

def hashmask (n : Nat) : Nat := hashsize n - 1

/-- `HASHPOWER_DEFAULT` -/
def hashpowerDefault : Nat := 16

/-- `assoc_init`, and the start of the maintenance thread. -/
def assocInit (hashtableInit : Nat) : Assoc :=
  let hashpower := if hashtableInit ≠ 0 then hashtableInit else hashpowerDefault
  { hashpower
    primaryHashtable := .calloc (hashsize hashpower)
    oldHashtable := .null
    expanding := false
    startedExpanding := false
    expandBucket := 0
    hashItems := 0
    thread := .bulk }

namespace Assoc

/-- `hv & hashmask(hashpower - 1)` -/
def oldbucket (s : Assoc) (hv : UInt32) : Nat := hv.toNat &&& hashmask (s.hashpower - 1)

/-- `hv & hashmask(hashpower)` -/
def bucket (s : Assoc) (hv : UInt32) : Nat := hv.toNat &&& hashmask s.hashpower

/-- The test for a bucket that is still in the old table. -/
def inOld (s : Assoc) (hv : UInt32) : Bool :=
  s.expanding && decide (s.expandBucket ≤ s.oldbucket hv)

/-- The comparison of the lengths and the `memcmp`. -/
def sameKey (key : List UInt8) (it : Item) : Bool :=
  key.length == it.key.length && it.key.take key.length == key

/-- `assoc_find` -/
def assocFind (s : Assoc) (key : List UInt8) (hv : UInt32) : Option (Option Item) := do
  let chain ← if s.inOld hv then s.oldHashtable.get? (s.oldbucket hv)
    else s.primaryHashtable.get? (s.bucket hv)
  return chain.find? (sameKey key)

/-- `_hashitem_before`: the chain up to the item with the key, and from there on. -/
def hashitemBefore (key : List UInt8) (chain : List Item) : List Item × List Item :=
  chain.span fun it => !sameKey key it

/-- `assoc_start_expand`; the signal may wake the thread up at any later time. -/
def assocStartExpand (s : Assoc) : Assoc :=
  if s.startedExpanding then s else { s with startedExpanding := true }

/-- A new chain for a hash value, in the table that has its bucket. -/
def putChain (s : Assoc) (hv : UInt32) (f : List Item → Option (List Item)) : Option Assoc :=
  if s.inOld hv then do
    let chain ← f (← s.oldHashtable.get? (s.oldbucket hv))
    let table ← s.oldHashtable.set? (s.oldbucket hv) chain
    return { s with oldHashtable := table }
  else do
    let chain ← f (← s.primaryHashtable.get? (s.bucket hv))
    let table ← s.primaryHashtable.set? (s.bucket hv) chain
    return { s with primaryHashtable := table }

/-- `assoc_insert` -/
def assocInsert (s : Assoc) (it : Item) (hv : UInt32) : Option Assoc := do
  let s ← s.putChain hv fun chain => some (it :: chain)
  let s := { s with hashItems := s.hashItems + 1 }
  if !s.expanding && hashsize s.hashpower * 3 / 2 < s.hashItems.toNat then
    return assocStartExpand s
  else
    return s

/-- The chain without the item that was found; `none` is the assertion at the end of
`assoc_delete`. -/
def unchain (key : List UInt8) (chain : List Item) : Option (List Item) :=
  match hashitemBefore key chain with
  | (_, []) => none
  | (before, _ :: nxt) => some (before ++ nxt)

/-- `assoc_delete` -/
def assocDelete (s : Assoc) (key : List UInt8) (hv : UInt32) : Option Assoc := do
  let s ← s.putChain hv (unchain key)
  return { s with hashItems := s.hashItems - 1 }

variable (hash : List UInt8 → UInt32) (hashBulkMove : Int)

/-- The number that `int bucket` holds. -/
def asInt (n : Nat) : Int :=
  let low := n % 4294967296
  if low < 2147483648 then low else low - 4294967296

/-- An item of the old bucket, at the front of its chain in the new table. -/
def rehash (s : Assoc) (table : Table Item) (it : Item) : Option (Table Item) := do
  let bucket := asInt (s.bucket (hash it.key))
  let chain ← table.get? bucket
  table.set? bucket (it :: chain)

/-- One bucket of the old table: the body of the loop over `hash_bulk_move`. -/
def moveBucket (s : Assoc) : Option Assoc := do
  let chain ← s.oldHashtable.get? s.expandBucket
  let primary ← chain.foldlM (s.rehash hash) s.primaryHashtable
  let old ← s.oldHashtable.set? s.expandBucket []
  let s := { s with
    primaryHashtable := primary, oldHashtable := old, expandBucket := s.expandBucket + 1 }
  if s.expandBucket = hashsize (s.hashpower - 1) then
    return { s with expanding := false, oldHashtable := .null }
  else
    return s

/-- The loop over `hash_bulk_move`, with so many rounds to go. -/
def bulkMove : Nat → Assoc → Option Assoc
  | 0, s => some s
  | n + 1, s => if s.expanding then (s.moveBucket hash).bind (bulkMove n) else some s

/-- The next step of `assoc_maintenance_thread`; `calloced` says whether `calloc` has a
table. The wait may end at any time. -/
def assocMaintenanceThread (s : Assoc) (calloced : Bool) : Option Assoc :=
  match s.thread with
  | .bulk => do
      let s ← s.bulkMove hash hashBulkMove.toNat
      return { s with thread := if s.expanding then .bulk else .park }
  | .park => some { s with startedExpanding := false, thread := .waiting }
  | .waiting => some { s with thread := .woken }
  | .woken => some { s with oldHashtable := s.primaryHashtable, thread := .saved }
  | .saved =>
      if calloced then
        some { s with primaryHashtable := .calloc (hashsize (s.hashpower + 1)), thread := .zeroed }
      else some { s with primaryHashtable := .null, thread := .failed }
  | .failed => some { s with primaryHashtable := s.oldHashtable, thread := .bulk }
  | .zeroed => some { s with hashpower := s.hashpower + 1, thread := .grown }
  | .grown => some { s with expanding := true, thread := .flagged }
  | .flagged => some { s with expandBucket := 0, thread := .bulk }

inductive Event
  | insert (it : Item)
  | delete (key : List UInt8)
  | maintain (calloced : Bool)

def step (s : Assoc) : Event → Option Assoc
  | .insert it => if s.thread.Expands then none else s.assocInsert it (hash it.key)
  | .delete key => if s.thread.Expands then none else s.assocDelete key (hash key)
  | .maintain calloced => s.assocMaintenanceThread hash hashBulkMove calloced

/-- What the callers of `assoc_insert` see to, and a bound on the tables that `calloc` makes. -/
def Allowed (s : Assoc) : Event → Prop
  | .insert it => s.assocFind it.key (hash it.key) = some none
  | .delete _ => True
  | .maintain calloced => s.thread = .saved → calloced = true → s.hashpower < 31

instance : ∀ (s : Assoc) (e : Event), Decidable (Allowed hash s e)
  | s, .insert it => inferInstanceAs (Decidable (s.assocFind it.key (hash it.key) = some none))
  | _, .delete _ => isTrue trivial
  | s, .maintain calloced =>
    inferInstanceAs (Decidable (s.thread = .saved → calloced = true → s.hashpower < 31))

/-- What is stored after an event. -/
def note (stored : List Item) : Event → List Item
  | .insert it => it :: stored
  | .delete key => eraseKey Item.key key stored
  | .maintain _ => stored

/-! ## Chains and buckets -/

section Chains

variable {s : Assoc} {key : List UInt8} {it : Item} {hv : UInt32} {chain : List Item}

theorem sameKey_eq_true : sameKey key it = true ↔ it.key = key := by
  rw [sameKey, Bool.and_eq_true, beq_iff_eq, beq_iff_eq]
  constructor
  · intro ⟨long, same⟩
    rwa [long, List.take_length] at same
  · rintro rfl
    exact ⟨rfl, List.take_length⟩

theorem find?_sameKey : chain.find? (sameKey key) = findKey Item.key key chain :=
  congrArg (List.find? · chain) (funext fun it => by
    rw [Bool.eq_iff_iff, sameKey_eq_true, decide_eq_true_iff])

theorem unchain_cons :
    unchain key (it :: chain) =
      if it.key = key then some chain else (unchain key chain).map (it :: ·) := by
  rw [unchain, hashitemBefore, List.span_eq_takeWhile_dropWhile]
  by_cases here : it.key = key
  · have found := sameKey_eq_true.mpr here
    rw [if_pos here, List.takeWhile_cons_of_neg (by simp [found]),
      List.dropWhile_cons_of_neg (by simp [found])]
    rfl
  · have other : sameKey key it = false := by
      rw [Bool.eq_false_iff]
      exact fun found => here (sameKey_eq_true.mp found)
    rw [if_neg here, List.takeWhile_cons_of_pos (by simp [other]),
      List.dropWhile_cons_of_pos (by simp [other]), unchain, hashitemBefore,
      List.span_eq_takeWhile_dropWhile]
    cases chain.dropWhile fun it => !sameKey key it <;> rfl

/-- A key that is in the chain is taken out of it. -/
theorem unchain_eq (there : ∃ it ∈ chain, it.key = key) :
    unchain key chain = some (eraseKey Item.key key chain) := by
  induction chain with
  | nil => simp at there
  | cons it chain ih =>
      rw [unchain_cons, eraseKey]
      by_cases here : it.key = key
      · rw [if_pos here, List.eraseP_cons_of_pos (by simpa using here)]
      · rw [if_neg here, List.eraseP_cons_of_neg (by simpa using here), ih, Option.map_some,
          eraseKey]
        obtain ⟨found, mem, own⟩ := there
        rcases List.mem_cons.mp mem with rfl | mem
        · exact absurd own here
        · exact ⟨found, mem, own⟩

theorem hashsize_pos (n : Nat) : 0 < hashsize n := by
  rw [hashsize, Nat.one_shiftLeft]
  exact Nat.two_pow_pos n

theorem and_hashmask (n p : Nat) : n &&& hashmask p = n % hashsize p := by
  rw [hashmask, hashsize, Nat.one_shiftLeft, Nat.and_two_pow_sub_one_eq_mod]

theorem bucket_lt : s.bucket hv < hashsize s.hashpower := by
  rw [bucket, and_hashmask]
  exact Nat.mod_lt _ (hashsize_pos _)

theorem oldbucket_lt : s.oldbucket hv < hashsize (s.hashpower - 1) := by
  rw [oldbucket, and_hashmask]
  exact Nat.mod_lt _ (hashsize_pos _)

theorem asInt_eq {n : Nat} (small : n < 2147483648) : asInt n = n := by
  have low : n % 4294967296 = n := Nat.mod_eq_of_lt (by omega)
  simp only [asInt, low, if_pos small]

theorem hashsize_le {n : Nat} (small : n ≤ 31) : hashsize n ≤ 2147483648 := by
  rw [hashsize, Nat.one_shiftLeft]
  exact Nat.pow_le_pow_right (by decide) small

end Chains

/-! ## The tables as homes -/

/-- The places of the chains. -/
inductive Cell
  | old (i : Nat)
  | primary (i : Nat)
  deriving DecidableEq

/-- The chains; what is behind `old_hashtable` counts while the table is expanded. -/
def cells (s : Assoc) : Cell → List Item
  | .old i => if s.expanding then s.oldHashtable.chain i else []
  | .primary i => s.primaryHashtable.chain i

/-- Where a key is looked for. -/
def home (s : Assoc) (key : List UInt8) : Cell :=
  if s.inOld (hash key) then .old (s.oldbucket (hash key)) else .primary (s.bucket (hash key))

/-- The tables have their sizes, and hold what is stored. -/
structure Whole (s : Assoc) (stored : List Item) : Prop where
  primary : s.primaryHashtable.size = hashsize s.hashpower
  old : s.expanding = true → s.oldHashtable.size = hashsize (s.hashpower - 1)
  left : s.expanding = true → s.expandBucket < hashsize (s.hashpower - 1)
  homed : Homed Item.key (s.home hash) s.cells stored

section Whole

variable {hash} {s t : Assoc} {stored : List Item} {key : List UInt8} {it : Item} {hv : UInt32}

theorem expanding_of_inOld (here : s.inOld hv = true) : s.expanding = true :=
  (Bool.and_eq_true _ _ ▸ here).1

/-- A search ends, and its answer is right. -/
theorem Whole.find (h : s.Whole hash stored) (key : List UInt8) :
    s.assocFind key (hash key) = some (findKey Item.key key stored) := by
  rw [assocFind, ← h.homed.find, home]
  by_cases here : s.inOld (hash key) = true
  · have expanding := expanding_of_inOld here
    rw [if_pos here, if_pos here, Table.get?_of_lt (h.old expanding ▸ oldbucket_lt), cells,
      if_pos expanding, Option.bind_eq_bind, Option.bind_some]
    exact congrArg some find?_sameKey
  · rw [if_neg here, if_neg here, Table.get?_of_lt (h.primary ▸ bucket_lt), cells,
      Option.bind_eq_bind, Option.bind_some]
    exact congrArg some find?_sameKey

theorem cells_update_old (expanding : s.expanding = true) {n i : Nat} {chain : List Item} :
    cells { s with oldHashtable := ⟨n, update s.oldHashtable.chain i chain⟩ } =
      update s.cells (.old i) chain := by
  funext cell
  cases cell with
  | old j =>
      by_cases here : j = i
      · simp [here, cells, expanding]
      · simp [here, cells, expanding]
  | primary j => rfl

theorem cells_update_primary {n i : Nat} {chain : List Item} :
    cells { s with primaryHashtable := ⟨n, update s.primaryHashtable.chain i chain⟩ } =
      update s.cells (.primary i) chain := by
  funext cell
  cases cell with
  | old j => rfl
  | primary j =>
      by_cases here : j = i
      · simp [here, cells]
      · simp [here, cells]

/-- A new chain at the home of a key, and everything else as before. -/
structure Rechained (s t : Assoc) (cell : Cell) (chain : List Item) : Prop where
  cells : t.cells = update s.cells cell chain
  primary : t.primaryHashtable.size = s.primaryHashtable.size
  old : t.oldHashtable.size = s.oldHashtable.size
  rest : ∃ primary old, t = { s with primaryHashtable := primary, oldHashtable := old }

theorem Whole.putChain (h : s.Whole hash stored) {f : List Item → Option (List Item)}
    {chain : List Item} (key : List UInt8) (made : f (s.cells (s.home hash key)) = some chain) :
    ∃ t, s.putChain (hash key) f = some t ∧ Rechained s t (s.home hash key) chain := by
  rw [home] at made ⊢
  rw [Assoc.putChain]
  by_cases here : s.inOld (hash key) = true
  · have expanding := expanding_of_inOld here
    have inside : s.oldbucket (hash key) < s.oldHashtable.size := h.old expanding ▸ oldbucket_lt
    rw [if_pos here] at made ⊢
    rw [if_pos here, Table.get?_of_lt inside]
    rw [cells, if_pos expanding] at made
    simp only [Option.bind_eq_bind, Option.bind_some, made, Table.set?_of_lt inside]
    exact ⟨_, rfl, cells_update_old expanding, rfl, rfl, _, _, rfl⟩
  · have inside : s.bucket (hash key) < s.primaryHashtable.size := h.primary ▸ bucket_lt
    rw [if_neg here] at made ⊢
    rw [if_neg here, Table.get?_of_lt inside]
    rw [cells] at made
    simp only [Option.bind_eq_bind, Option.bind_some, made, Table.set?_of_lt inside]
    exact ⟨_, rfl, cells_update_primary, rfl, rfl, _, _, rfl⟩

/-- What a new chain and other counters make of the stored items. -/
theorem Whole.rechained (h : s.Whole hash stored) {cell : Cell} {chain : List Item}
    {new : List Item} (put : Rechained s t cell chain)
    (homed : Homed Item.key (s.home hash) (update s.cells cell chain) new) :
    t.Whole hash new := by
  obtain ⟨primary, old, rfl⟩ := put.rest
  refine ⟨put.primary.trans h.primary, fun expanding => put.old.trans (h.old expanding), h.left, ?_⟩
  rw [put.cells]
  exact homed

/-- What neither the tables nor the chains depend on. -/
theorem Whole.counted (h : s.Whole hash stored) (started : Bool) (items : UInt32)
    (thread : Thread) :
    Whole hash { s with startedExpanding := started, hashItems := items, thread := thread }
      stored :=
  ⟨h.primary, h.old, h.left, h.homed⟩

/-- While the table is not expanded, only the one table matters. -/
theorem Whole.idle (h : s.Whole hash stored) (idle : s.expanding = false)
    (idle' : t.expanding = false) (power : t.hashpower = s.hashpower)
    (primary : t.primaryHashtable = s.primaryHashtable) : t.Whole hash stored := by
  refine ⟨by rw [primary, power, h.primary], by simp [idle'], by simp [idle'], ?_⟩
  refine cast (congrArg₂ (Homed Item.key · · stored) ?_ ?_) h.homed
  · funext key
    simp [home, inOld, idle, idle', bucket, power]
  · funext cell
    cases cell with
    | old i => simp [cells, idle, idle']
    | primary i => simp [cells, primary]

/-- What the other threads leave to the maintenance thread. -/
structure Beside (s t : Assoc) : Prop where
  thread : t.thread = s.thread
  hashpower : t.hashpower = s.hashpower
  expanding : t.expanding = s.expanding
  expandBucket : t.expandBucket = s.expandBucket

theorem Whole.insert (h : s.Whole hash stored) (it : Item)
    (fresh : ∀ other ∈ stored, other.key ≠ it.key) :
    ∃ t, s.assocInsert it (hash it.key) = some t ∧ t.Whole hash (it :: stored) ∧
      t.hashItems = s.hashItems + 1 ∧ Beside s t := by
  obtain ⟨t, put, re⟩ := h.putChain (f := fun chain => some (it :: chain)) it.key rfl
  have whole := h.rechained re (h.homed.push fresh)
  obtain ⟨primary, old, rfl⟩ := re.rest
  simp only [assocInsert, put, Option.bind_eq_bind, Option.bind_some]
  split
  · rw [assocStartExpand]
    split
    · exact ⟨_, rfl, whole.counted _ _ _, rfl, rfl, rfl, rfl, rfl⟩
    · exact ⟨_, rfl, whole.counted _ _ _, rfl, rfl, rfl, rfl, rfl⟩
  · exact ⟨_, rfl, whole.counted _ _ _, rfl, rfl, rfl, rfl, rfl⟩

theorem Whole.delete (h : s.Whole hash stored) (there : ∃ it ∈ stored, it.key = key) :
    ∃ t, s.assocDelete key (hash key) = some t ∧ t.Whole hash (eraseKey Item.key key stored) ∧
      t.hashItems = s.hashItems - 1 ∧ Beside s t := by
  have found : ∃ it ∈ s.cells (s.home hash key), it.key = key := by
    obtain ⟨it, mem, own⟩ := there
    exact ⟨it, own ▸ (h.homed.mem it).mp mem, own⟩
  obtain ⟨t, put, re⟩ := h.putChain key (unchain_eq found)
  have whole := h.rechained re (h.homed.remove key)
  obtain ⟨primary, old, rfl⟩ := re.rest
  simp only [assocDelete, put, Option.bind_eq_bind, Option.bind_some]
  exact ⟨_, rfl, whole.counted _ _ _, rfl, rfl, rfl, rfl, rfl⟩

theorem foldlM_rehash (small : s.hashpower ≤ 31) (chain : List Item) {table : Table Item}
    (size : table.size = hashsize s.hashpower) :
    chain.foldlM (s.rehash hash) table = some
      ⟨table.size, scatter (fun it => s.bucket (hash it.key)) chain table.chain⟩ := by
  induction chain generalizing table with
  | nil => rfl
  | cons it chain ih =>
      have inside : s.bucket (hash it.key) < table.size := size ▸ bucket_lt
      have int : asInt (s.bucket (hash it.key)) = s.bucket (hash it.key) :=
        asInt_eq (lt_of_lt_of_le bucket_lt (hashsize_le small))
      have one : s.rehash hash table it =
          some { table with
            chain := update table.chain (s.bucket (hash it.key))
              (it :: table.chain (s.bucket (hash it.key))) } := by
        simp only [rehash, int, Table.get?_of_lt inside, Table.set?_of_lt inside,
          Option.bind_eq_bind, Option.bind_some]
      simp only [List.foldlM_cons, one, Option.bind_eq_bind, Option.bind_some, scatter_cons]
      exact ih size

variable (hash) in
/-- The tables when the items of the bucket `expand_bucket` have moved. -/
def moved (s : Assoc) : Assoc :=
  { s with
    primaryHashtable := ⟨s.primaryHashtable.size, scatter (fun it => s.bucket (hash it.key))
      (s.oldHashtable.chain s.expandBucket) s.primaryHashtable.chain⟩
    oldHashtable := ⟨s.oldHashtable.size, update s.oldHashtable.chain s.expandBucket []⟩
    expandBucket := s.expandBucket + 1 }

theorem inOld_moved (expanding : s.expanding = true) :
    (s.moved hash).inOld hv = true ↔ s.expandBucket < s.oldbucket hv := by
  rw [inOld, Bool.and_eq_true, decide_eq_true_eq]
  exact and_iff_right expanding

theorem inOld_iff (expanding : s.expanding = true) :
    s.inOld hv = true ↔ s.expandBucket ≤ s.oldbucket hv := by
  rw [inOld, Bool.and_eq_true, decide_eq_true_eq]
  exact and_iff_right expanding

/-- The keys of the bucket have their homes in the new table, and all others keep theirs. -/
theorem Whole.moved (h : s.Whole hash stored) (expanding : s.expanding = true) :
    Homed Item.key ((s.moved hash).home hash) (s.moved hash).cells stored := by
  have target : ∀ it ∈ s.cells (.old s.expandBucket),
      (s.moved hash).home hash it.key = .primary (s.bucket (hash it.key)) := by
    intro it mem
    have own := h.homed.own _ it mem
    rw [home] at own
    split at own
    · have bucket : s.oldbucket (hash it.key) = s.expandBucket := by simpa using own
      rw [home, if_neg (by rw [inOld_moved expanding]; omega)]
      rfl
    · simp at own
  have others : ∀ key, s.home hash key ≠ .old s.expandBucket →
      (s.moved hash).home hash key = s.home hash key := by
    intro key apart
    rw [home] at apart
    rw [home, home]
    by_cases there : s.inOld (hash key) = true
    · rw [if_pos there] at apart
      have late := (inOld_iff expanding).mp there
      have ne : s.oldbucket (hash key) ≠ s.expandBucket := by simpa using apart
      rw [if_pos ((inOld_moved expanding).mpr (by omega)), if_pos there]
      rfl
    · have early : ¬ s.expandBucket ≤ s.oldbucket (hash key) :=
        fun late => there ((inOld_iff expanding).mpr late)
      rw [if_neg (by rw [inOld_moved expanding]; omega), if_neg there]
      rfl
  have homed := h.homed.scatter others
  rw [scatter_congr target] at homed
  refine cast (congrArg (Homed Item.key _ · stored) (funext fun cell => ?_)) homed
  cases cell with
  | old j =>
      rw [scatter_off (by simp)]
      by_cases here : j = s.expandBucket
      · simp [here, cells, Assoc.moved]
      · rw [update_of_ne (by simpa using here)]
        simp [cells, Assoc.moved, here]
  | primary j =>
      rw [scatter_comp (e := Cell.primary) (fun _ _ => Cell.primary.inj)]
      simp [cells, Assoc.moved, expanding]

/-- Behind the last bucket the old table has nothing more. -/
theorem Whole.moved_last (h : s.Whole hash stored) (expanding : s.expanding = true)
    (last : s.expandBucket + 1 = hashsize (s.hashpower - 1)) :
    Whole hash { s.moved hash with expanding := false, oldHashtable := .null } stored := by
  have out : ∀ hv, ¬ (s.moved hash).inOld hv = true := by
    intro hv
    have inside : s.oldbucket hv < hashsize (s.hashpower - 1) := oldbucket_lt
    rw [inOld_moved expanding]
    omega
  have homed := h.moved expanding
  have none_ : ∀ j, (s.moved hash).cells (.old j) = [] := by
    refine fun j => List.eq_nil_iff_forall_not_mem.mpr fun it mem => ?_
    have own := homed.own _ it mem
    rw [home, if_neg (out _)] at own
    simp at own
  refine ⟨h.primary, by simp, by simp, ?_⟩
  refine cast (congrArg₂ (Homed Item.key · · stored) ?_ ?_) homed
  · funext key
    rw [home, if_neg (out _)]
    rfl
  · funext cell
    cases cell with
    | old j => exact (none_ j).trans rfl
    | primary j => rfl

theorem Whole.moveBucket (h : s.Whole hash stored) (expanding : s.expanding = true)
    (small : s.hashpower ≤ 31) :
    ∃ t, s.moveBucket hash = some t ∧ t.Whole hash stored ∧ t.hashItems = s.hashItems ∧
      t.thread = s.thread ∧ t.hashpower = s.hashpower ∧
      (t.expanding = true → t.expandBucket = s.expandBucket + 1) := by
  have left := h.left expanding
  have inside : s.expandBucket < s.oldHashtable.size := h.old expanding ▸ left
  have run : s.moveBucket hash =
      if s.expandBucket + 1 = hashsize (s.hashpower - 1) then
        some { s.moved hash with expanding := false, oldHashtable := .null }
      else some (s.moved hash) := by
    simp only [Assoc.moveBucket, Table.get?_of_lt inside, foldlM_rehash small _ h.primary,
      Table.set?_of_lt inside, Option.bind_eq_bind, Option.bind_some]
    rfl
  rw [run]
  split
  · next last => exact ⟨_, rfl, h.moved_last expanding last, rfl, rfl, rfl, by simp⟩
  · next more =>
    refine ⟨_, rfl, ⟨h.primary, fun _ => h.old expanding, fun _ => ?_, h.moved expanding⟩, rfl, rfl,
      rfl, fun _ => rfl⟩
    change s.expandBucket + 1 < hashsize (s.hashpower - 1)
    omega

/-- A round of the maintenance thread moves the next buckets, until nothing is left. -/
theorem Whole.bulkMove (n : Nat) (h : s.Whole hash stored) (small : s.hashpower ≤ 31) :
    ∃ t, s.bulkMove hash n = some t ∧ t.Whole hash stored ∧ t.hashItems = s.hashItems ∧
      t.thread = s.thread ∧ t.hashpower = s.hashpower ∧
      (t.expanding = true → s.expanding = true ∧ t.expandBucket = s.expandBucket + n) := by
  induction n generalizing s with
  | zero => exact ⟨s, rfl, h, rfl, rfl, rfl, fun expanding => ⟨expanding, rfl⟩⟩
  | succ n ih =>
      rw [Assoc.bulkMove]
      by_cases expanding : s.expanding = true
      · obtain ⟨t, ran, whole, items, thread, power, one⟩ := h.moveBucket expanding small
        obtain ⟨u, rest, whole', items', thread', power', more⟩ := ih whole (power.trans_le small)
        rw [if_pos expanding, ran, Option.bind_some, rest]
        refine ⟨u, rfl, whole', items'.trans items, thread'.trans thread, power'.trans power, ?_⟩
        intro still
        obtain ⟨before, count⟩ := more still
        refine ⟨expanding, ?_⟩
        rw [count, one before]
        omega
      · rw [if_neg expanding]
        exact ⟨s, rfl, h, rfl, rfl, rfl, fun still => absurd still expanding⟩

theorem unchain_eq_none {chain : List Item} (absent : ∀ it ∈ chain, it.key ≠ key) :
    unchain key chain = none := by
  induction chain with
  | nil => rfl
  | cons it chain ih =>
      rw [unchain_cons, if_neg (absent it List.mem_cons_self),
        ih fun other mem => absent other (List.mem_cons_of_mem it mem), Option.map_none]

/-- The assertion in `assoc_delete`. -/
theorem Whole.delete_absent (h : s.Whole hash stored) (absent : ∀ it ∈ stored, it.key ≠ key) :
    s.assocDelete key (hash key) = none := by
  have none_ : unchain key (s.cells (s.home hash key)) = none := by
    refine unchain_eq_none fun it mem own => absent it ((h.homed.mem it).mpr ?_) own
    rwa [own]
  rw [assocDelete, Assoc.putChain]
  rw [home] at none_
  split at none_
  · next here =>
    have expanding := expanding_of_inOld here
    rw [cells, if_pos expanding] at none_
    simp only [if_pos here, Table.get?_of_lt (h.old expanding ▸ oldbucket_lt),
      Option.bind_eq_bind, Option.bind_some, none_, Option.bind_none]
  · next here =>
    rw [cells] at none_
    simp only [if_neg here, Table.get?_of_lt (h.primary ▸ bucket_lt),
      Option.bind_eq_bind, Option.bind_some, none_, Option.bind_none]

end Whole

end Assoc

end Shang.Memcached

import Shang.Memcached.Assoc

/-!
# The hash table of memcached while it grows

The invariant of the hash table speaks of the table in which `assoc_expand` began as long
as the maintenance thread is inside it, and of both tables behind it. A search that comes
at any other time finds what is stored (`search_right`); `search_right_iff` says which
searches go wrong inside. An expansion ends after as many rounds as it has buckets left
(`expansion_ends`).
-/

namespace Shang.Memcached

open Lib Function

namespace Assoc

variable (hash : List UInt8 → UInt32) (hashBulkMove : Int)

/-! ## One step -/

/-- The state in which `assoc_expand` began; elsewhere the state itself. -/
def origin (s : Assoc) : Assoc :=
  match s.thread with
  | .failed | .zeroed => { s with primaryHashtable := s.oldHashtable }
  | .grown => { s with primaryHashtable := s.oldHashtable, hashpower := s.hashpower - 1 }
  | .flagged => { s with
      primaryHashtable := s.oldHashtable, hashpower := s.hashpower - 1, expanding := false }
  | _ => s

/-- What holds where the thread is. -/
def Phase (s : Assoc) : Prop :=
  match s.thread with
  | .bulk => True
  | .park | .waiting | .woken => s.expanding = false
  | .saved => s.expanding = false ∧ s.oldHashtable = s.primaryHashtable
  | .failed => s.expanding = false ∧ s.primaryHashtable = .null
  | .zeroed => s.expanding = false ∧ s.hashpower < 31 ∧
      s.primaryHashtable = .calloc (hashsize (s.hashpower + 1))
  | .grown => s.expanding = false ∧ 0 < s.hashpower ∧
      s.primaryHashtable = .calloc (hashsize s.hashpower)
  | .flagged => s.expanding = true ∧ 0 < s.hashpower ∧
      s.primaryHashtable = .calloc (hashsize s.hashpower)

structure Inv (stored : List Item) (s : Assoc) : Prop where
  whole : s.origin.Whole hash stored
  phase : s.Phase
  small : s.hashpower ≤ 31
  items : s.hashItems = UInt32.ofNat stored.length

section Inv

variable {hash} {hashBulkMove} {s t : Assoc} {stored : List Item} {key : List UInt8} {it : Item}

theorem origin_eq (out : ¬ s.thread.Expands) : s.origin = s := by
  rw [origin]
  split
  all_goals first
    | rfl
    | next here => exact absurd (by rw [here]; trivial) out

/-- A step of another thread, which leaves the maintenance thread where it is. -/
theorem Inv.other {new : List Item} (h : Inv hash stored s) (out : ¬ s.thread.Expands)
    (whole : t.Whole hash new) (items : t.hashItems = UInt32.ofNat new.length)
    (beside : Beside s t) : Inv hash new t where
  whole := by
    rw [origin_eq (beside.thread ▸ out)]
    exact whole
  phase := by
    have phase := h.phase
    rw [Phase, beside.thread, beside.expanding]
    rw [Phase] at phase
    cases here : s.thread <;> rw [here] at out phase
    all_goals first
      | exact phase
      | exact absurd trivial out
  small := beside.hashpower.trans_le h.small
  items := items

theorem Inv.insert (h : Inv hash stored s) (out : ¬ s.thread.Expands)
    (fresh : s.assocFind it.key (hash it.key) = some none) :
    ∃ t, s.assocInsert it (hash it.key) = some t ∧ Inv hash (it :: stored) t ∧ Beside s t := by
  have whole := origin_eq out ▸ h.whole
  rw [whole.find, Option.some.injEq, findKey_eq_none] at fresh
  obtain ⟨t, ran, whole, items, beside⟩ := whole.insert it fresh
  refine ⟨t, ran, h.other out whole ?_ beside, beside⟩
  rw [items, h.items, List.length_cons, UInt32.ofNat_add]
  rfl

theorem Inv.delete (h : Inv hash stored s) (out : ¬ s.thread.Expands)
    (there : ∃ it ∈ stored, it.key = key) :
    ∃ t, s.assocDelete key (hash key) = some t ∧ Inv hash (eraseKey Item.key key stored) t ∧
      Beside s t := by
  have whole := origin_eq out ▸ h.whole
  obtain ⟨t, ran, whole, items, beside⟩ := whole.delete there
  refine ⟨t, ran, h.other out whole ?_ beside, beside⟩
  obtain ⟨it, mem, own⟩ := there
  have one := List.length_pos_of_mem mem
  have size : (eraseKey Item.key key stored).length + 1 = stored.length := by
    rw [eraseKey, List.length_eraseP_of_mem mem (by simpa using own)]
    omega
  rw [items, h.items, ← size, UInt32.ofNat_add]
  exact UInt32.add_sub_cancel _ _

/-- The table that was the primary one becomes the old one. -/
def renamed : Cell → Cell
  | .old i => .primary i
  | .primary i => .old i

/-- With the last assignment of `assoc_expand` all that is stored is in the old table. -/
theorem Inv.expanded (h : Inv hash stored s) (here : s.thread = .flagged) :
    Whole hash { s with expandBucket := 0, thread := .bulk } stored := by
  have phase := h.phase
  have whole := h.whole
  simp only [Phase, here] at phase
  simp only [origin, here] at whole
  obtain ⟨expanding, _, table⟩ := phase
  refine ⟨?_, fun _ => whole.primary, fun _ => hashsize_pos _, ?_⟩
  · change s.primaryHashtable.size = _
    rw [table]
    rfl
  · refine whole.homed.rename renamed (fun key => ?_) (fun cell => ?_) fun cell a _ => ?_
    · simp only [home, inOld, expanding, Bool.false_and, Bool.true_and, Nat.zero_le, decide_true,
        if_true, Bool.false_eq_true, if_false]
      rfl
    · cases cell with
      | old i =>
          change s.primaryHashtable.chain i = []
          rw [table]
          rfl
      | primary i => exact if_pos expanding
    · cases cell with
      | old i => exact ⟨.primary i, rfl⟩
      | primary i => exact ⟨.old i, rfl⟩

variable (hashBulkMove) in
theorem Inv.maintain (h : Inv hash stored s) {calloced : Bool}
    (allowed : Allowed hash s (.maintain calloced)) :
    ∃ t, s.assocMaintenanceThread hash hashBulkMove calloced = some t ∧ Inv hash stored t := by
  obtain ⟨whole, phase, small, items⟩ := h
  rw [assocMaintenanceThread]
  cases here : s.thread with
  | bulk =>
      simp only [origin, here] at whole
      obtain ⟨t, ran, whole, items', thread, power, _⟩ :=
        whole.bulkMove hashBulkMove.toNat small
      refine ⟨{ t with thread := if t.expanding then .bulk else .park },
        by simp only [ran, Option.bind_eq_bind, Option.bind_some]; rfl,
        ?_, ?_, power.trans_le small, items'.trans items⟩
      · have out : ¬ Thread.Expands (if t.expanding then .bulk else .park) := by
          split <;> exact id
        rw [origin_eq out]
        exact whole.counted _ _ _
      · cases expanding : t.expanding with
        | false => exact rfl
        | true => trivial
  | park =>
      simp only [origin, Phase, here] at whole phase
      exact ⟨_, rfl, whole.counted _ _ _, phase, small, items⟩
  | waiting =>
      simp only [origin, Phase, here] at whole phase
      exact ⟨_, rfl, whole.counted _ _ _, phase, small, items⟩
  | woken =>
      simp only [origin, Phase, here] at whole phase
      exact ⟨_, rfl, whole.idle phase phase rfl rfl, ⟨phase, rfl⟩, small, items⟩
  | saved =>
      simp only [origin, Phase, here] at whole phase
      obtain ⟨expanding, same⟩ := phase
      cases calloced with
      | false =>
          exact ⟨_, rfl, whole.idle expanding expanding rfl same, ⟨expanding, rfl⟩, small, items⟩
      | true =>
          exact ⟨_, rfl, whole.idle expanding expanding rfl same,
            ⟨expanding, allowed here rfl, rfl⟩, small, items⟩
  | failed =>
      simp only [origin, here] at whole
      exact ⟨_, rfl, whole.counted _ _ _, trivial, small, items⟩
  | zeroed =>
      simp only [origin, Phase, here] at whole phase
      obtain ⟨expanding, less, table⟩ := phase
      refine ⟨_, rfl, whole.counted _ _ _, ⟨expanding, Nat.succ_pos _, table⟩, less, items⟩
  | grown =>
      simp only [origin, Phase, here] at whole phase
      obtain ⟨expanding, pos, table⟩ := phase
      exact ⟨_, rfl, whole.idle expanding rfl rfl rfl, ⟨rfl, pos, table⟩, small, items⟩
  | flagged =>
      refine ⟨_, rfl, Inv.expanded ⟨whole, phase, small, items⟩ here, trivial, small, items⟩

/-- A step of the other threads. -/
theorem Inv.beside {e : Event} (h : Inv hash stored s) (allowed : Allowed hash s e)
    (other : ∀ calloced, e ≠ .maintain calloced) (ran : step hash hashBulkMove s e = some t) :
    Inv hash (note stored e) t ∧ Beside s t := by
  cases e with
  | insert it =>
      rw [step] at ran
      split at ran
      · cases ran
      · next out =>
        obtain ⟨u, ran', after⟩ := h.insert out allowed
        cases ran.symm.trans ran'
        exact after
  | delete key =>
      rw [step] at ran
      split at ran
      · cases ran
      · next out =>
        by_cases there : ∃ it ∈ stored, it.key = key
        · obtain ⟨u, ran', after⟩ := h.delete out there
          cases ran.symm.trans ran'
          exact after
        · have whole := origin_eq out ▸ h.whole
          rw [whole.delete_absent fun it mem own => there ⟨it, mem, own⟩] at ran
          cases ran
  | maintain calloced => exact absurd rfl (other calloced)

theorem inv_step {e : Event} (h : Inv hash stored s) (allowed : Allowed hash s e)
    (ran : step hash hashBulkMove s e = some t) : Inv hash (note stored e) t := by
  cases e with
  | insert it => exact (h.beside allowed (by simp) ran).1
  | delete key => exact (h.beside allowed (by simp) ran).1
  | maintain calloced =>
      obtain ⟨u, ran', after⟩ := h.maintain hashBulkMove allowed
      cases ran.symm.trans ran'
      exact after

/-- A round of the thread while the table is expanded. -/
theorem Inv.round (h : Inv hash stored s) (here : s.thread = .bulk) {calloced : Bool}
    (ran : step hash hashBulkMove s (.maintain calloced) = some t) :
    t.thread = (if t.expanding then .bulk else .park) ∧ (t.expanding = true →
      t.hashpower = s.hashpower ∧ t.expandBucket = s.expandBucket + hashBulkMove.toNat) := by
  have whole := h.whole
  simp only [origin, here] at whole
  obtain ⟨u, moved, _, _, _, power, more⟩ := whole.bulkMove hashBulkMove.toNat h.small
  simp only [step, assocMaintenanceThread, here, moved, Option.bind_eq_bind,
    Option.bind_some] at ran
  cases ran
  exact ⟨rfl, fun still => ⟨power, (more still).2⟩⟩

end Inv

/-! ## Runs -/

variable {hash} {hashBulkMove} {s t : Assoc} {es : List Event} {key : List UInt8}

theorem inv_init {n : Nat} (small : n ≤ 31) : Inv hash [] (assocInit n) where
  whole := by
    refine ⟨rfl, nofun, nofun, ⟨fun cell it mem => ?_, fun cell => ?_, fun it => ?_, .nil⟩⟩
    · cases cell <;> simp [assocInit, origin, cells, Table.calloc] at mem
    · cases cell <;> exact .nil
    · simp [assocInit, origin, home, inOld, cells, Table.calloc]
  phase := trivial
  small := by
    change (if n ≠ 0 then n else hashpowerDefault) ≤ 31
    split
    · exact small
    · decide
  items := rfl

theorem inv_run {stored : List Item} (h : Inv hash stored s)
    (allowed : Along (step hash hashBulkMove) (Allowed hash) s es)
    (ran : run (step hash hashBulkMove) s es = some t) :
    Inv hash (es.foldl note stored) t := by
  induction es generalizing s stored with
  | nil =>
      cases ran
      exact h
  | cons e es ih =>
      obtain ⟨u, first, rest⟩ := run_cons_eq_some.mp ran
      exact ih (inv_step h allowed.1 first) (allowed.2 u first) rest

/-- Whatever the order of insertions, deletions and moves of buckets, a search outside
`assoc_expand` finds what was inserted last and not deleted, the counter is the number of items,
and the next step of any thread keeps to the tables. -/
theorem search_right {n : Nat} (small : n ≤ 31)
    (allowed : Along (step hash hashBulkMove) (Allowed hash) (assocInit n) es)
    (ran : run (step hash hashBulkMove) (assocInit n) es = some s) (out : ¬ s.thread.Expands) :
    (∀ key, s.assocFind key (hash key) =
        some (findKey Item.key key (es.foldl note []))) ∧
      s.hashItems = UInt32.ofNat (es.foldl note []).length ∧
      (∀ it, findKey Item.key it.key (es.foldl note []) = none →
        step hash hashBulkMove s (.insert it) ≠ none) ∧
      (∀ key, findKey Item.key key (es.foldl note []) ≠ none →
        step hash hashBulkMove s (.delete key) ≠ none) ∧
      ∀ calloced, step hash hashBulkMove s (.maintain calloced) ≠ none := by
  have h := inv_run (inv_init small) allowed ran
  have whole := origin_eq out ▸ h.whole
  refine ⟨whole.find, h.items, fun it fresh => ?_, fun key there => ?_, fun calloced => ?_⟩
  · obtain ⟨t, ran, _⟩ := h.insert out ((whole.find it.key).trans (congrArg some fresh))
    rw [step, if_neg out, ran]
    exact Option.some_ne_none t
  · have there : ∃ it ∈ es.foldl note [], it.key = key := by
      by_contra none_
      exact there (findKey_eq_none.mpr fun it mem own => none_ ⟨it, mem, own⟩)
    obtain ⟨t, ran, _⟩ := h.delete out there
    rw [step, if_neg out, ran]
    exact Option.some_ne_none t
  · have settled : Allowed hash s (.maintain calloced) := by
      intro here _
      rw [here] at out
      exact absurd trivial out
    obtain ⟨t, ran, _⟩ := h.maintain hashBulkMove settled
    rw [step, ran]
    exact Option.some_ne_none t

/-- One of the two buckets has moved when the second item comes. -/
theorem search_right_moved :
    ∃ s, run (step (fun key => (key.headD 0).toUInt32) 1) (assocInit 1)
        (.insert ⟨[1], 8⟩ :: List.replicate 9 (.maintain true) ++ [.insert ⟨[2], 9⟩]) = some s ∧
      s.assocFind [1] 1 = some (some ⟨[1], 8⟩) ∧ s.hashItems = 2 := by
  obtain ⟨s, ran, here⟩ := Option.map_eq_some_iff.mp
    (show (run (step (fun key => (key.headD 0).toUInt32) 1) (assocInit 1)
      (.insert ⟨[1], 8⟩ :: List.replicate 9 (.maintain true) ++ [.insert ⟨[2], 9⟩])).map thread =
        some .bulk by decide +kernel)
  obtain ⟨found, items, _⟩ := search_right (by decide) (by decide +kernel) ran (here ▸ id)
  exact ⟨s, ran, found [1], items⟩

/-- The rounds of the maintenance thread among the events. -/
def rounds (es : List Event) : Nat := es.countP fun | .maintain _ => true | _ => false

theorem ends_of_rounds {stored : List Item} (h : Inv hash stored s) (here : s.thread = .bulk)
    (allowed : Along (step hash hashBulkMove) (Allowed hash) s es)
    (ran : run (step hash hashBulkMove) s es = some t)
    (many : s.expanding = true →
      hashsize (s.hashpower - 1) ≤ s.expandBucket + rounds es * hashBulkMove.toNat) :
    ∃ fs u, fs <+: es ∧ run (step hash hashBulkMove) s fs = some u ∧ u.expanding = false ∧
      ¬ u.thread.Expands := by
  have out : ¬ s.thread.Expands := by
    rw [here]
    exact id
  induction es generalizing s stored with
  | nil =>
      refine ⟨[], s, List.prefix_rfl, rfl, Bool.eq_false_iff.mpr fun expanding => ?_, out⟩
      have whole := h.whole
      simp only [origin, here] at whole
      have left := whole.left expanding
      have all := many expanding
      simp only [rounds, List.countP_nil, Nat.zero_mul, Nat.add_zero] at all
      omega
  | cons e es ih =>
      cases expanding : s.expanding with
      | false => exact ⟨[], s, List.nil_prefix, rfl, expanding, out⟩
      | true =>
          obtain ⟨u, first, rest⟩ := run_cons_eq_some.mp ran
          have all := many expanding
          have next : u.thread = (if u.expanding then .bulk else .park) ∧ (u.expanding = true →
              hashsize (u.hashpower - 1) ≤ u.expandBucket + rounds es * hashBulkMove.toNat) := by
            cases e with
            | insert it =>
                obtain ⟨_, beside⟩ := h.beside allowed.1 (by simp) first
                rw [beside.thread, beside.hashpower, beside.expandBucket, beside.expanding]
                exact ⟨by rw [here, expanding]; rfl, fun _ => by simpa [rounds] using all⟩
            | delete key =>
                obtain ⟨_, beside⟩ := h.beside allowed.1 (by simp) first
                rw [beside.thread, beside.hashpower, beside.expandBucket, beside.expanding]
                exact ⟨by rw [here, expanding]; rfl, fun _ => by simpa [rounds] using all⟩
            | maintain calloced =>
                obtain ⟨thread, more⟩ := h.round here first
                refine ⟨thread, fun still => ?_⟩
                obtain ⟨power, bucket⟩ := more still
                simp only [rounds, List.countP_cons_of_pos, Nat.succ_mul] at all ⊢
                rw [power, bucket]
                omega
          obtain ⟨thread, more⟩ := next
          cases still : u.expanding with
          | false =>
              refine ⟨[e], u, by simp, run_cons_eq_some.mpr ⟨u, first, rfl⟩, still, ?_⟩
              rw [thread, still]
              exact id
          | true =>
              rw [still] at thread
              obtain ⟨fs, v, pre, ran, ended⟩ := ih (inv_step h allowed.1 first) thread
                (allowed.2 u first) rest more (by rw [thread]; exact id)
              exact ⟨e :: fs, v, List.cons_prefix_cons.mpr ⟨rfl, pre⟩,
                run_cons_eq_some.mpr ⟨u, first, ran⟩, ended⟩

/-- An expansion ends: when the thread has had enough rounds for the buckets that are left, there
was a moment when every item was in the new table, whatever the other threads did meanwhile. -/
theorem expansion_ends {n : Nat} {fs : List Event} (small : n ≤ 31)
    (allowed : Along (step hash hashBulkMove) (Allowed hash) (assocInit n) (es ++ fs))
    (ran : run (step hash hashBulkMove) (assocInit n) es = some s) (here : s.thread = .bulk)
    (rest : run (step hash hashBulkMove) s fs = some t)
    (many : hashsize (s.hashpower - 1) ≤ s.expandBucket + rounds fs * hashBulkMove.toNat) :
    ∃ gs u, gs <+: fs ∧ run (step hash hashBulkMove) s gs = some u ∧ u.expanding = false ∧
      ∀ it, findKey Item.key it.key ((es ++ gs).foldl note []) = some it ↔
        it ∈ u.primaryHashtable.chain (u.bucket (hash it.key)) := by
  obtain ⟨before, later⟩ := along_append.mp allowed
  have h := inv_run (inv_init small) before ran
  obtain ⟨gs, u, pre, reached, ended, out⟩ :=
    ends_of_rounds h here (later s ran) rest fun _ => many
  obtain ⟨hs, rfl⟩ := pre
  have whole := origin_eq out ▸
    (inv_run h (along_append.mp (later s ran)).1 reached).whole
  refine ⟨gs, u, List.prefix_append gs hs, reached, ended, fun it => ?_⟩
  rw [List.foldl_append, findKey_eq_some whole.homed.distinct, whole.homed.mem, home,
    if_neg (by simp [inOld, ended])]
  exact and_iff_left rfl

/-- Two rounds for two buckets, and a deletion between them. -/
theorem expansion_ends_small :
    ∃ s gs u, run (step (fun key => (key.headD 0).toUInt32) 1) (assocInit 1)
        (.insert ⟨[1], 8⟩ :: List.replicate 8 (.maintain true)) = some s ∧
      gs <+: [.maintain true, .delete [1], .maintain true] ∧
      run (step (fun key => (key.headD 0).toUInt32) 1) s gs = some u ∧ u.expanding = false := by
  obtain ⟨s, ran, here⟩ := Option.map_eq_some_iff.mp
    (show (run (step (fun key => (key.headD 0).toUInt32) 1) (assocInit 1)
      (.insert ⟨[1], 8⟩ :: List.replicate 8 (.maintain true))).map
        (fun s => (s.thread, s.hashpower)) = some (.bulk, 2) by decide +kernel)
  obtain ⟨looping, power⟩ := Prod.mk.inj here
  have all : (run (step (fun key => (key.headD 0).toUInt32) 1) (assocInit 1)
      (.insert ⟨[1], 8⟩ :: List.replicate 8 (.maintain true) ++
        [.maintain true, .delete [1], .maintain true])).map thread = some .park := by decide +kernel
  obtain ⟨t, ran', _⟩ := Option.map_eq_some_iff.mp all
  obtain ⟨_, first, rest⟩ := run_append_eq_some.mp ran'
  cases ran.symm.trans first
  obtain ⟨gs, u, pre, reached, ended, _⟩ := expansion_ends (by decide) (by decide +kernel) ran
    looping rest (by rw [power]; exact Nat.le_add_left 2 s.expandBucket)
  exact ⟨s, gs, u, ran, pre, reached, ended⟩

/-- A search in an empty new table. -/
theorem assocFind_calloc {n : Nat} (table : s.primaryHashtable = .calloc (hashsize s.hashpower) ∨
    s.primaryHashtable = .calloc (hashsize (s.hashpower + n))) {hv : UInt32}
    (out : s.inOld hv = false) : s.assocFind key hv = some none := by
  have inside : s.bucket hv < s.primaryHashtable.size ∧ s.primaryHashtable.chain = fun _ => [] := by
    rcases table with table | table
    · rw [table]
      exact ⟨bucket_lt, rfl⟩
    · rw [table]
      refine ⟨lt_of_lt_of_le bucket_lt ?_, rfl⟩
      simp only [Table.calloc, hashsize, Nat.one_shiftLeft]
      exact Nat.pow_le_pow_right (by decide) (by omega)
  rw [assocFind, if_neg (by simp [out]), Table.get?_of_lt inside.1, inside.2]
  rfl

/-- A search may come while the thread is in `assoc_expand`. It is right but for a null pointer
and for a key that is stored: such a key is missed from the moment the new table is there until
`expanding` is set, and then until `expand_bucket` is 0 if the number left there by the last
expansion is above the bucket of the key. -/
theorem search_right_iff {n : Nat} (small : n ≤ 31)
    (allowed : Along (step hash hashBulkMove) (Allowed hash) (assocInit n) es)
    (ran : run (step hash hashBulkMove) (assocInit n) es = some s) (key : List UInt8) :
    s.assocFind key (hash key) = some (findKey Item.key key (es.foldl note [])) ↔
      s.thread ≠ .failed ∧ (findKey Item.key key (es.foldl note []) = none ∨
        s.thread ≠ .zeroed ∧ s.thread ≠ .grown ∧
          (s.thread = .flagged → s.expandBucket ≤ s.oldbucket (hash key))) := by
  obtain ⟨whole, phase, _, _⟩ := inv_run (inv_init small) allowed ran
  cases here : s.thread
  case bulk | park | waiting | woken | saved =>
    simp only [origin, here] at whole
    simp [whole.find]
  case failed =>
    simp only [Phase, here] at phase
    have fault : s.assocFind key (hash key) = none := by
      rw [assocFind, if_neg (by simp [inOld, phase.1]), phase.2, Table.get?_null]
      rfl
    simp [fault]
  case zeroed =>
    simp only [Phase, here] at phase
    rw [assocFind_calloc (.inr phase.2.2) (by simp [inOld, phase.1])]
    simp [eq_comm]
  case grown =>
    simp only [Phase, here] at phase
    rw [assocFind_calloc (n := 0) (.inl phase.2.2) (by simp [inOld, phase.1])]
    simp [eq_comm]
  case flagged =>
    simp only [Phase, origin, here] at phase whole
    by_cases early : s.expandBucket ≤ s.oldbucket (hash key)
    · have found : s.assocFind key (hash key) = some (findKey Item.key key (es.foldl note [])) := by
        rw [← whole.find key, assocFind, assocFind, if_pos ((inOld_iff phase.1).mpr early),
          if_neg (by simp [inOld])]
        rfl
      simp [found, early]
    · have out : s.inOld (hash key) = false :=
        Bool.eq_false_iff.mpr fun late => early ((inOld_iff phase.1).mp late)
      rw [assocFind_calloc (n := 0) (.inl phase.2.2) out]
      simp [early, eq_comm]

/-- Between `calloc` and the flag an item is missed. -/
theorem search_right_iff_missed :
    ∃ s, run (step (fun key => (key.headD 0).toUInt32) 1) (assocInit 1)
        (.insert ⟨[1], 8⟩ :: List.replicate 5 (.maintain true)) = some s ∧
      s.assocFind [1] 1 ≠ some (some ⟨[1], 8⟩) := by
  obtain ⟨s, ran, here⟩ := Option.map_eq_some_iff.mp
    (show (run (step (fun key => (key.headD 0).toUInt32) 1) (assocInit 1)
      (.insert ⟨[1], 8⟩ :: List.replicate 5 (.maintain true))).map thread =
        some .zeroed by decide +kernel)
  refine ⟨s, ran, fun right => ?_⟩
  obtain ⟨_, absent | ⟨other, _⟩⟩ :=
    (search_right_iff (by decide) (by decide +kernel) ran [1]).mp right
  · exact absurd absent (by decide +kernel)
  · exact other here

end Assoc

end Shang.Memcached

import Shang.Memcached.Store

/-!
# Runs of memcached

The events of the connections, of the clock and of the maintenance thread in any order, with
any answers of `memory_allocate`. A book beside the server has what the clients asked for and
the value that was last stored under each key: a hit is the value in the book
(`get_last_stored`), for whatever was evicted, flushed or put together in between. What the
references and the chunks are in every state of a run is `memcached_safe`; what a connection
sends does not change under it (`held_unchanged`), and a `cas` takes the place of nothing but
what its client was shown (`cas_replaces_seen`).
-/

namespace Shang.Memcached

open Lib Function

namespace Server

/-! ## The book -/

/-- What was asked for in the commands whose data are being read, and the value that was last
stored under each key. -/
structure Book where
  asked : Nat → List UInt8 × Int × Nat
  last : List UInt8 → Option Value

/-- An event is put down, with its reply. -/
def Book.note (b : Book) (e : Event) (reply : Reply) : Book :=
  match e, reply with
  | .update key flags exptime _ _ _ _ _, .reading it =>
      { b with asked := Function.update b.asked it (key, flags, exptime) }
  | .complete it comm data _ _, .store .stored =>
      let (key, flags, exptime) := b.asked it
      { b with last :=
          Function.update b.last key (some (comm.result (b.last key) ⟨flags, exptime, data⟩)) }
  | _, _ => b

variable (g : Settings)

/-- An event of the server, put down in the book. -/
def noted (sb : Server × Book) (e : Event) : Option (Server × Book) :=
  (sb.1.exec g e).map fun after => (after.1, sb.2.note e after.2)

/-- The event is allowed, and its thread need not wait. -/
def Ready (s : Server) (e : Event) : Prop :=
  s.Allowed g e ∧ ¬ (e.locks ∧ s.cache.assoc.thread.Expands)

instance (s : Server) (e : Event) : Decidable (Ready g s e) :=
  inferInstanceAs (Decidable (_ ∧ _))

/-- What holds between the events. -/
structure Good (s : Server) : Prop where
  sound : ∃ q stored, Cache.Sound g s.cache q stored s.own []
  reading : ∀ r ∈ s.reading, (s.cache.item r.1).linked = false ∧ s.own.count r.1 = 1
  now : 0 < s.cache.currentTime
  cas : g.useCas = true → ∀ r, (s.cache.item r).linked = true →
    (s.cache.item r).cas ≤ s.cache.casId

/-- The book has what the items say. -/
structure Tells (b : Book) (s : Server) : Prop where
  asked : ∀ r ∈ s.reading, b.asked r.1 =
    ((s.cache.item r.1).key, (s.cache.item r.1).flags, (s.cache.item r.1).exptime)
  last : ∀ r, (s.cache.item r).linked = true →
    b.last (s.cache.item r).key = some (s.cache.item r).value

/-- What an event does. -/
structure Does (e : Event) (s t : Server) (reply : Reply) : Prop where
  good : Good g t
  tells : ∀ b, Tells b s → Tells (b.note e reply) t
  held : ∀ r ∈ s.writing, (t.cache.item r).toContent = (s.cache.item r).toContent
  ages : Cache.Ages g s.cache t.cache

section Events

variable {g} {s t : Server} {e : Event} {reply : Reply} {b : Book} {own' held lnk : List Nat}
  {key : List UInt8} {flags : Int} {exptime nbytes cas it : Nat} {comm : StoreCmd}
  {data : List UInt8} {trylock : Nat → Bool} {page : Nat → Option Nat}

theorem Few.all (few : Few s) (p : Nat) : s.own.count p < 65530 := by
  by_cases held : p ∈ s.own
  · exact few p held
  · rw [List.count_eq_zero.mpr held]
    decide

/-- The items whose data are read stay out of the cache, and have no other reference. -/
theorem Good.after (h : Good g s) (sound : ∃ q stored, Cache.Sound g t.cache q stored t.own [])
    (rest : Cache.Remains held lnk s.cache t.cache)
    (young : ∀ p ∈ lnk, Cache.Young g p s.cache t.cache) (sub : t.reading ⊆ s.reading)
    (off : ∀ r ∈ t.reading, r.1 ∉ lnk) (le : ∀ r ∈ t.reading, t.own.count r.1 ≤ s.own.count r.1)
    (now : 0 < t.cache.currentTime) : Good g t where
  sound := sound
  reading r mem := by
    obtain ⟨unlinked, one⟩ := h.reading r (sub mem)
    refine ⟨?_, Nat.le_antisymm (one ▸ le r mem) ?_⟩
    · rw [Bool.eq_false_iff] at unlinked ⊢
      exact fun there => unlinked (rest.linked r.1 (off r mem) there)
    · exact List.count_pos_iff.mpr (List.mem_append_left _ (List.mem_map_of_mem mem))
  now := now
  cas use r there := by
    rcases (rest.ages young).2 r there with ⟨linked, same⟩ | new
    · rw [same]
      exact (h.cas use r linked).trans rest.casId
    · exact (new use).2

/-- Nothing comes into the cache. -/
theorem Good.keep (h : Good g s) (sound : ∃ q stored, Cache.Sound g t.cache q stored t.own [])
    (rest : Cache.Remains held [] s.cache t.cache) (sub : t.reading ⊆ s.reading)
    (le : ∀ r ∈ t.reading, t.own.count r.1 ≤ s.own.count r.1)
    (now : 0 < t.cache.currentTime) : Good g t :=
  h.after sound rest (by simp) sub (fun _ _ => List.not_mem_nil) le now

theorem mem_own_of_reading {r : Nat × StoreCmd} (mem : r ∈ s.reading) : r.1 ∈ s.own :=
  List.mem_append_left _ (List.mem_map_of_mem mem)

theorem mem_own_of_writing {r : Nat} (mem : r ∈ s.writing) : r ∈ s.own :=
  List.mem_append_right _ mem

/-- An event that puts nothing in the cache, and starts to read no data. -/
theorem Does.quiet (good : Good g t) (rest : Cache.Remains s.own [] s.cache t.cache)
    (sub : t.reading ⊆ s.reading) (same : ∀ b : Book, b.note e reply = b) :
    Does g e s t reply where
  good := good
  tells b tells := by
    rw [same]
    refine ⟨fun r mem => ?_, fun r there => ?_⟩
    · rw [rest.held r.1 (mem_own_of_reading (sub mem)) List.not_mem_nil]
      exact tells.asked r (sub mem)
    · rw [rest.entry r List.not_mem_nil there]
      exact tells.last r (rest.linked r List.not_mem_nil there)
  held r mem := rest.held r (mem_own_of_writing mem) List.not_mem_nil
  ages := rest.ages (by simp)

/-- The references of the connections, without the one of an item that is read. -/
def others (s : Server) (it : Nat) (comm : StoreCmd) : List Nat :=
  (s.reading.erase (it, comm)).map Prod.fst ++ s.writing

theorem own_perm_reading (mem : (it, comm) ∈ s.reading) :
    s.own.Perm (it :: s.others it comm) :=
  ((List.perm_cons_erase mem).map Prod.fst).append_right s.writing

/-- The references of the connections, without one of an item that is sent. -/
theorem own_perm_writing (mem : it ∈ s.writing) :
    s.own.Perm (it :: (s.reading.map Prod.fst ++ s.writing.erase it)) :=
  ((List.perm_cons_erase mem).append_left _).trans List.perm_middle

theorem count_le_of_perm (perm : s.own.Perm (it :: own')) (p : Nat) :
    own'.count p ≤ s.own.count p := by
  rw [perm.count_eq]
  exact (List.sublist_cons_self it own').count_le p

/-- A reference is given back. -/
theorem Good.giveBack (h : Good g s) {reading : List (Nat × StoreCmd)} {writing : List Nat}
    (perm : s.own.Perm (it :: (reading.map Prod.fst ++ writing))) (sub : reading ⊆ s.reading)
    (same : ∀ b : Book, b.note e .none = b) :
    ∃ c, s.cache.doItemRemove g it = some c ∧ Does g e s ⟨c, reading, writing⟩ .none := by
  obtain ⟨q, stored, sound⟩ := h.sound
  obtain ⟨c, q', ran, sound', -, kept⟩ := (sound.perm perm).remove
  have effect : Cache.Effect s.own [] s.cache c := kept.effect
  refine ⟨c, ran, .quiet ?_ effect.toRemains sub same⟩
  exact h.keep ⟨q', stored, sound'⟩ effect.toRemains sub
    (fun r _ => count_le_of_perm perm r.1) (by rw [effect.currentTime]; exact h.now)

/-- Only the cache has changed, and nothing came into it. -/
theorem Good.quiet (h : Good g s) {d : Cache}
    (sound : ∃ q stored, Cache.Sound g d q stored s.own [])
    (effect : Cache.Effect s.own [] s.cache d) (same : ∀ b : Book, b.note e reply = b) :
    Does g e s { s with cache := d } reply :=
  .quiet (h.keep sound effect.toRemains (List.Subset.refl _) (fun _ _ => Nat.le_refl _)
    (by rw [effect.currentTime]; exact h.now)) effect.toRemains (List.Subset.refl _) same

/-- A cas id is all that `ITEM_set_cas` writes. -/
theorem setCas_said (h : Stritem) (cas : Nat) :
    (h.setCas cas).linked = h.linked ∧ (h.setCas cas).key = h.key ∧
      (h.setCas cas).flags = h.flags ∧ (h.setCas cas).exptime = h.exptime ∧
      (h.setCas cas).time = h.time := by
  rw [Stritem.setCas]
  split <;> exact ⟨rfl, rfl, rfl, rfl, rfl⟩

theorem ItemOk.setCas {slabList : Nat → List Nat} {now p : Nat} {q : Cache.Place → List Nat}
    {h : Stritem} (ok : Cache.ItemOk g slabList now q held p h) (mem : p ∈ held) (cas : Nat) :
    Cache.ItemOk g slabList now q held p (h.setCas cas) := by
  have used := ok.used (.inr mem)
  rw [Stritem.setCas]
  split
  · exact ⟨ok.free, ok.slabbed, ok.lru, fun _ => ⟨used.slabbed, used.isClass, used.chunk,
      used.fits, used.data, used.nbytes, used.isCas⟩, ok.refs, ok.small, ok.time⟩
  · exact ok

/-- A connection has a new item, for the data that it reads. -/
theorem Good.handOut (h : Good g s) {c : Cache}
    (sound : ∃ q stored, Cache.Sound g c q stored (it :: s.own) [])
    (effect : Cache.Effect s.own [] s.cache c) (unheld : it ∉ s.own)
    (unlinked : (c.item it).linked = false)
    (content : (c.item it).toContent = Cache.newContent g key flags exptime nbytes) :
    Does g (.update key flags exptime nbytes comm cas trylock page) s
      { s with cache := c.set it (·.setCas cas), reading := (it, comm) :: s.reading }
      (.reading it) := by
  obtain ⟨q, stored, sound⟩ := sound
  obtain ⟨linkedSame, keySame, flagsSame, exptimeSame, timeSame⟩ := setCas_said (c.item it) cas
  rw [content] at keySame flagsSame exptimeSame
  have written : Cache.Sound g (c.set it (·.setCas cas)) q stored (it :: s.own) [] :=
    sound.set _ (ItemOk.setCas (sound.items it) List.mem_cons_self cas) (fun _ _ => rfl) linkedSame
      (by rw [keySame, content]) timeSame (List.Subset.refl _) fun held => .inr (.inl held)
  have effect : Cache.Effect s.own [] s.cache (c.set it (·.setCas cas)) :=
    effect.trans (.set unheld unlinked linkedSame)
  have apart : ∀ r ∈ s.reading, r.1 ≠ it := fun r mem =>
    ne_of_mem_of_not_mem (mem_own_of_reading mem) unheld
  refine ⟨⟨⟨q, stored, written⟩, ?_, ?_, fun use r there => ?_⟩, fun b tells => ⟨?_, ?_⟩,
    fun r mem => effect.held r (mem_own_of_writing mem) List.not_mem_nil,
    effect.toRemains.ages (by simp)⟩
  · intro r mem
    rcases List.mem_cons.mp mem with rfl | mem
    · rw [Cache.set_item_self, linkedSame]
      refine ⟨unlinked, ?_⟩
      change (it :: s.own).count it = 1
      rw [List.count_cons_self, List.count_eq_zero.mpr unheld]
    · obtain ⟨before, one⟩ := h.reading r mem
      refine ⟨?_, ?_⟩
      · rw [Bool.eq_false_iff] at before ⊢
        exact fun there => before (effect.linked r.1 List.not_mem_nil there)
      · change (it :: s.own).count r.1 = 1
        rw [List.count_cons_of_ne (apart r mem).symm, one]
  · rw [effect.currentTime]
    exact h.now
  · rw [effect.entry r List.not_mem_nil there]
    exact (h.cas use r (effect.linked r List.not_mem_nil there)).trans effect.casId
  · intro r mem
    change Function.update b.asked it (key, flags, exptime) r.1 = _
    rcases List.mem_cons.mp mem with rfl | mem
    · rw [update_self, Cache.set_item_self, keySame, flagsSame, exptimeSame]
      rfl
    · rw [update_of_ne (apart r mem), effect.held r.1 (mem_own_of_reading mem) List.not_mem_nil]
      exact tells.asked r mem
  · intro r there
    rw [effect.entry r List.not_mem_nil there]
    exact tells.last r (effect.linked r List.not_mem_nil there)

/-- `process_update_command` has an item for the data, or takes the old value away. -/
theorem Good.update (h : Good g s) (out : ¬ s.cache.assoc.thread.Expands)
    (norepair : g.tailRepairTime = 0) (key : List UInt8) (flags : Int) (exptime : Nat)
    (comm : StoreCmd) (cas : Nat) (trylock : Nat → Bool) (bytes : 2 ≤ nbytes)
    (paged : Paged g s.cache page) (few : Few s) :
    ∃ t reply,
      s.processUpdateCommand g key flags exptime nbytes comm cas trylock page = some (t, reply) ∧
      Does g (.update key flags exptime nbytes comm cas trylock page) s t reply := by
  obtain ⟨q, stored, sound⟩ := h.sound
  obtain ⟨c, it, off, fresh, ran, moved, none_ | some_⟩ :=
    sound.alloc key flags exptime nbytes (g.hash key) trylock page out
      (fun p => by have := few.all p; omega) h.now norepair bytes rfl
      (paged _ (Cache.slabsClsid_lt g _))
  · obtain ⟨rfl, -, q', stored', sound'⟩ := none_
    have effect : Cache.Effect s.own [] s.cache c := moved.effect (List.Subset.refl _)
    rw [processUpdateCommand]
    dsimp only
    rw [ran, Option.bind_eq_bind, Option.bind_some]
    dsimp only
    rw [if_neg (not_not.mpr rfl)]
    by_cases set_ : comm = .set
    · rw [if_pos set_]
      have out' : ¬ c.assoc.thread.Expands := by rwa [effect.thread]
      obtain ⟨m, old, ran', absent | there⟩ :=
        sound'.get out' key fun p => by have := few.all p; omega
      · obtain ⟨rfl, sound₂, ⟨_, kept, -⟩, -⟩ := absent
        refine ⟨_, .outOfMemory, ?_, h.quiet sound₂ (effect.trans kept.effect) fun _ => rfl⟩
        rw [ran', Option.bind_some]
        rfl
      · obtain ⟨found, sound₂, kept, linked, key_, -⟩ := there
        have linked' : (m.item old).linked = true := (kept.linked old).mpr ⟨linked, by simp⟩
        obtain ⟨u, q₃, unlinked, sound₃, -, kept'⟩ :=
          sound₂.unlink linked' (by rwa [kept.thread])
        rw [kept.said.1, key_] at unlinked
        obtain ⟨v, q₄, removed, sound₄, -, kept''⟩ := sound₃.remove
        refine ⟨_, .outOfMemory, ?_, h.quiet ⟨q₄, _, sound₄⟩
          (((effect.trans kept.effect).trans kept'.effect).trans kept''.effect) fun _ => rfl⟩
        rw [ran', Option.bind_some]
        dsimp only
        rw [if_neg found, unlinked, Option.bind_eq_bind, Option.bind_some, removed]
        rfl
    · rw [if_neg set_]
      exact ⟨_, _, rfl, h.quiet ⟨q', stored', sound'⟩ effect fun _ => rfl⟩
  · obtain ⟨found, sound', unheld, unlinked, content⟩ := some_
    refine ⟨_, _, ?_, h.handOut sound' (moved.effect (List.Subset.refl _)) unheld unlinked content⟩
    rw [processUpdateCommand]
    dsimp only
    rw [ran, Option.bind_eq_bind, Option.bind_some]
    dsimp only
    rw [if_pos found]
    rfl

/-- `process_get_command` hands out an item with the key that is not dead. -/
theorem Good.get (h : Good g s) (out : ¬ s.cache.assoc.thread.Expands) (key : List UInt8)
    (few : Few s) :
    ∃ t reply, s.processGetCommand g key = some (t, reply) ∧ Does g (.get key) s t reply ∧
      (reply = .miss ∨ ∃ it, reply = .hit it ∧ (s.cache.item it).linked = true ∧
        (s.cache.item it).key = key ∧ s.cache.dead (s.cache.item it) = false ∧
        (t.cache.item it).toContent = (s.cache.item it).toContent) := by
  obtain ⟨q, stored, sound⟩ := h.sound
  obtain ⟨m, it, ran, none_ | some_⟩ := sound.get out key fun p => by have := few.all p; omega
  · obtain ⟨rfl, sound', ⟨off, kept, -⟩, -⟩ := none_
    have effect : Cache.Effect s.own [] s.cache m := kept.effect
    refine ⟨_, _, ?_, h.quiet sound' effect fun _ => rfl, .inl rfl⟩
    rw [processGetCommand, ran]
    rfl
  · obtain ⟨found, sound', kept, linked, own, alive⟩ := some_
    obtain ⟨c, q', fresh, ran', sound'', -, -, -, kept'⟩ :=
      sound'.refresh (p := it) (by rw [kept.currentTime]; exact h.now)
    have effect : Cache.Effect s.own [] s.cache c := kept.effect.trans kept'.effect
    have perm : (it :: s.own).Perm (s.reading.map Prod.fst ++ it :: s.writing) :=
      List.perm_middle.symm
    refine ⟨⟨c, s.reading, it :: s.writing⟩, .hit it, ?_, .quiet ?_ effect.toRemains
      (List.Subset.refl _) fun _ => rfl,
      .inr ⟨it, rfl, linked, own, alive, (kept'.content it).trans (kept.content it)⟩⟩
    · rw [processGetCommand, ran, Option.bind_eq_bind, Option.bind_some]
      dsimp only
      rw [if_neg found, ran']
      rfl
    · refine h.keep ⟨q', stored, sound''.perm perm⟩ effect.toRemains (List.Subset.refl _)
        (fun r mem => ?_) (by rw [effect.currentTime]; exact h.now)
      have apart : it ≠ r.1 := by
        rintro rfl
        rw [(h.reading r mem).1] at linked
        cases linked
      change (s.reading.map Prod.fst ++ it :: s.writing).count r.1 ≤ _
      rw [← perm.count_eq, List.count_cons_of_ne apart]

/-- The value that is stored is the one that is put down. -/
theorem Tells.put {c u : Cache} {q : Cache.Place → List Nat} {stored : List Item} {v : Value}
    (tells : Tells b s) (mem : (it, comm) ∈ s.reading)
    (written : c = s.cache.set it fun h => { h with data := data })
    (unlinked : (s.cache.item it).linked = false)
    (puts : Cache.Puts g own' c u (c.item it).key v) (stores : Cache.Stores c it comm v)
    (sound : Cache.Sound g u q stored own' [])
    (reading : ∀ r ∈ s.reading.erase (it, comm), r.1 ∈ own' ∧ r.1 ≠ it) {writing : List Nat} :
    Tells (b.note (.complete it comm data trylock page) (.store .stored))
      ⟨u, s.reading.erase (it, comm), writing⟩ := by
  obtain ⟨p, off, effect, there, keyP, valueP, -⟩ := puts
  have asked := tells.asked _ mem
  have item : c.item it = { s.cache.item it with data := data } := by
    rw [written, Cache.set_item_self]
  have other : ∀ r ≠ it, c.item r = s.cache.item r := fun r apart => by
    rw [written, Cache.set_item_of_ne apart]
  have linkedSame : ∀ r, (c.item r).linked = true → r ≠ it := by
    rintro r linked rfl
    rw [item, unlinked] at linked
    cases linked
  have last : ∀ r, (c.item r).linked = true → b.last (c.item r).key = some (c.item r).value := by
    intro r linked
    have apart := linkedSame r linked
    rw [other r apart] at linked ⊢
    exact tells.last r linked
  have value : v = comm.result (b.last (c.item it).key) (c.item it).value := by
    rcases stores with ⟨first, second, rfl⟩ | ⟨old, linked, same, rfl⟩
    · rw [StoreCmd.result.eq_def]
      split
      · exact absurd rfl first
      · exact absurd rfl second
      · rfl
    · rw [← same, last old linked]
  have note : b.note (.complete it comm data trylock page) (.store .stored) =
      { b with last := Function.update b.last (c.item it).key (some v) } := by
    rw [Book.note, asked, value, item]
    rfl
  rw [note]
  refine ⟨fun r mem' => ?_, fun r linked => ?_⟩
  · obtain ⟨held, apart⟩ := reading r mem'
    rw [effect.held r.1 held fun same => off (List.mem_singleton.mp same ▸ held), other r.1 apart]
    exact tells.asked r (List.mem_of_mem_erase mem')
  · rcases eq_or_ne r p with rfl | apart
    · change Function.update b.last (c.item it).key (some v) (u.item r).key = some (u.item r).value
      rw [keyP, valueP, update_self]
    · have outside : r ∉ [p] := by simpa using apart
      have differs : (u.item r).key ≠ (c.item it).key := fun same =>
        apart (sound.distinct linked there (same.trans keyP.symm))
      change Function.update b.last (c.item it).key (some v) (u.item r).key = some (u.item r).value
      rw [update_of_ne differs, effect.entry r outside linked]
      exact last r (effect.linked r outside linked)

/-- The item whose data are read is out of the cache, and nobody else has it. -/
theorem Good.unheld (h : Good g s) (mem : (it, comm) ∈ s.reading) :
    (s.cache.item it).linked = false ∧ it ∉ s.others it comm := by
  obtain ⟨unlinked, one⟩ := h.reading _ mem
  dsimp only at unlinked one
  rw [(own_perm_reading mem).count_eq, List.count_cons_self] at one
  exact ⟨unlinked, List.count_eq_zero.mp (Nat.succ.inj one)⟩

theorem mem_others_of_reading {r : Nat × StoreCmd} (mem : r ∈ s.reading.erase (it, comm)) :
    r.1 ∈ s.others it comm := List.mem_append_left _ (List.mem_map_of_mem mem)

theorem mem_others_of_writing {r : Nat} (mem : r ∈ s.writing) : r ∈ s.others it comm :=
  List.mem_append_right _ mem

/-- The data are read into the item. -/
theorem Good.written (h : Good g s) (mem : (it, comm) ∈ s.reading)
    (length : data.length = (s.cache.item it).nbytes) :
    (∃ q stored, Cache.Sound g (s.cache.set it fun h => { h with data := data }) q stored
      (it :: s.others it comm) []) ∧
    Cache.Effect (s.others it comm) [] s.cache
      (s.cache.set it fun h => { h with data := data }) := by
  obtain ⟨q, stored, sound⟩ := h.sound
  obtain ⟨unlinked, unheld⟩ := h.unheld mem
  have counted := sound.perm (own_perm_reading mem)
  have ok := counted.items it
  have used := ok.used (.inr List.mem_cons_self)
  refine ⟨⟨q, stored, ?_⟩, .set unheld unlinked rfl⟩
  exact counted.set _ ⟨ok.free, ok.slabbed, ok.lru, fun _ => ⟨used.slabbed, used.isClass,
    used.chunk, used.fits, length, used.nbytes, used.isCas⟩, ok.refs, ok.small, ok.time⟩
    (fun _ _ => rfl) rfl rfl rfl (List.Subset.refl _) fun held => .inr (.inl held)

/-- The book still has what the other items say. -/
theorem Tells.leave {v : Cache} {writing : List Nat} (tells : Tells b s)
    (rest : Cache.Remains (s.others it comm) [] s.cache v) :
    Tells b ⟨v, s.reading.erase (it, comm), writing⟩ := by
  refine ⟨fun r there => ?_, fun r there => ?_⟩
  · rw [rest.held r.1 (mem_others_of_reading there) List.not_mem_nil]
    exact tells.asked r (List.mem_of_mem_erase there)
  · rw [rest.entry r List.not_mem_nil there]
    exact tells.last r (rest.linked r List.not_mem_nil there)

/-- Behind `do_store_item` the reference is given up. -/
theorem Good.finish {c u : Cache} {q : Cache.Place → List Nat} {stored : List Item}
    (h : Good g s) (mem : (it, comm) ∈ s.reading)
    (made : c = s.cache.set it fun h => { h with data := data })
    (start : Cache.Effect (s.others it comm) [] s.cache c)
    (ran : storeData g c it comm trylock page = some (u, reply))
    (sound : Cache.Sound g u q stored (it :: s.others it comm) [])
    (effect : Cache.Effect (s.others it comm) lnk c u) (off : ∀ p ∈ lnk, p ∉ s.others it comm)
    (young : ∀ p ∈ lnk, Cache.Young g p c u)
    (tells : ∀ v q', Cache.Sound g v q' stored (s.others it comm) [] → Cache.Kept [] [] u v →
      ∀ b, Tells b s → Tells (b.note (.complete it comm data trylock page) reply)
        ⟨v, s.reading.erase (it, comm), s.writing⟩) :
    ∃ t, s.completeNreadAscii g it comm data trylock page = some (t, reply) ∧
      Does g (.complete it comm data trylock page) s t reply := by
  obtain ⟨v, q', removed, sound', -, kept⟩ := sound.remove
  have total : Cache.Effect (s.others it comm) lnk s.cache v :=
    ((start.weaken (List.nil_subset lnk)).trans effect).trans kept.effect
  have late : ∀ p ∈ lnk, Cache.Young g p s.cache v := fun p mem =>
    (young p mem).within start.casId kept
  refine ⟨⟨v, s.reading.erase (it, comm), s.writing⟩, ?_, ?_, tells v q' sound' kept,
    fun r there => total.held r (mem_others_of_writing there)
      fun new => off r new (mem_others_of_writing there), total.toRemains.ages late⟩
  · rw [completeNreadAscii]
    dsimp only
    rw [← made, ran, Option.bind_eq_bind, Option.bind_some]
    dsimp only
    rw [removed]
    rfl
  · exact h.after ⟨q', stored, sound'⟩ total.toRemains late List.erase_subset
      (fun r there new => off _ new (mem_others_of_reading there))
      (fun r _ => count_le_of_perm (own_perm_reading mem) r.1)
      (by rw [total.currentTime]; exact h.now)

/-- `complete_nread_ascii` stores the data, or does not. -/
theorem Good.complete (h : Good g s) (out : ¬ s.cache.assoc.thread.Expands)
    (norepair : g.tailRepairTime = 0) (mem : (it, comm) ∈ s.reading) (trylock : Nat → Bool)
    (length : data.length = (s.cache.item it).nbytes) (paged : Paged g s.cache page)
    (few : Few s) :
    ∃ t reply, s.completeNreadAscii g it comm data trylock page = some (t, reply) ∧
      Does g (.complete it comm data trylock page) s t reply ∧
      (reply = .store .stored → Cache.Swaps s.cache it comm) := by
  obtain ⟨unlinked, unheld⟩ := h.unheld mem
  obtain ⟨⟨q, stored, sound⟩, start⟩ := h.written mem length
  obtain ⟨c, made⟩ : ∃ c, c = s.cache.set it fun h => { h with data := data } := ⟨_, rfl⟩
  rw [← made] at sound start
  have unlinked' : (c.item it).linked = false := by
    rw [made, Cache.set_item_self]
    exact unlinked
  have out' : ¬ c.assoc.thread.Expands := by rwa [start.thread]
  have few' : ∀ p, (s.others it comm).count p < 65530 := fun p =>
    (count_le_of_perm (own_perm_reading mem) p).trans_lt (few.all p)
  by_cases bad : (c.item it).data.drop ((c.item it).nbytes - 2) ≠ [13, 10]
  · have ran : storeData g c it comm trylock page = some (c, .badDataChunk) := by
      rw [storeData, if_pos bad]
    have still : Cache.Effect (s.others it comm) [] c c := (Cache.Kept.refl c).effect
    obtain ⟨t, ran', does⟩ := h.finish mem made start ran sound still (by simp) (by simp)
      fun v _ _ kept b tells => tells.leave (start.trans kept.effect).toRemains
    exact ⟨t, _, ran', does, by simp⟩
  · obtain ⟨u, r, q', stored', ran, sound', after⟩ :=
      sound.store comm trylock page unheld unlinked' out' few'
        (by rw [start.currentTime]; exact h.now) norepair (by rw [made]; exact paged)
    have ran' : storeData g c it comm trylock page = some (u, .store r) := by
      rw [storeData, if_neg bad, ran]
      rfl
    rcases after with ⟨other, effect⟩ |
      ⟨rfl, swaps, v, ⟨p, off, effect, there, keyP, valueP, young⟩, stores⟩
    · have same : ∀ b : Book, b.note (.complete it comm data trylock page) (.store r) = b := by
        intro b
        cases r
        case stored => exact absurd rfl other
        all_goals rfl
      obtain ⟨t, ran₂, does⟩ := h.finish mem made start ran' sound' effect (by simp) (by simp)
        fun v _ _ kept b tells => by
          rw [same]
          exact tells.leave ((start.trans effect).trans kept.effect).toRemains
      exact ⟨t, _, ran₂, does, fun same => absurd (Reply.store.inj same) other⟩
    · obtain ⟨t, ran₂, does⟩ := h.finish mem made start ran' sound' effect (by simpa using off)
        (by simpa using young) fun w _ sound₂ kept b tells => by
          refine tells.put mem made unlinked ⟨p, off, effect.trans kept.effect,
            (kept.linked p).mpr ⟨there, List.not_mem_nil⟩, kept.said.1.trans keyP,
            kept.said.2.trans valueP, young.within (Nat.le_refl _) kept⟩ stores sound₂
            fun r there => ?_
          have held := mem_others_of_reading there
          exact ⟨held, ne_of_mem_of_not_mem held unheld⟩
      refine ⟨t, _, ran₂, does, fun _ cas => ?_⟩
      obtain ⟨old, linked, key, same⟩ := swaps cas
      have apart : old ≠ it := by
        rintro rfl
        rw [unlinked'] at linked
        cases linked
      rw [made, Cache.set_item_of_ne apart] at linked
      rw [made, Cache.set_item_of_ne apart, Cache.set_item_self] at key same
      exact ⟨old, linked, key, same⟩

/-- `flush_all` takes items out of the cache; at once, it leaves dead ones only. -/
theorem Good.flushAll (h : Good g s) (out : ¬ s.cache.assoc.thread.Expands)
    (delayed : Option Nat) :
    ∃ t, s.flushAll g delayed = some (t, .none) ∧ Does g (.flushAll delayed) s t .none ∧
      t.own = s.own ∧ t.cache.assoc.thread = s.cache.assoc.thread ∧
      (delayed = none → 2 ≤ s.cache.currentTime → ∀ r, (t.cache.item r).linked = true →
        t.cache.dead (t.cache.item r) = true) := by
  obtain ⟨q, stored, sound⟩ := h.sound
  obtain ⟨c, made⟩ : ∃ c : Cache, c =
    { s.cache with oldestLive := delayed.getD s.cache.currentTime - 1 } := ⟨_, rfl⟩
  have sound' : Cache.Sound g c q stored s.own [] := by
    rw [made]
    exact ⟨sound.queues, sound.tails, sound.count, sound.items, sound.sorted, sound.assoc,
      sound.table, sound.chunks, sound.pages⟩
  have same : c.item = s.cache.item ∧ c.assoc = s.cache.assoc ∧
      c.currentTime = s.cache.currentTime ∧ c.casId = s.cache.casId := by
    rw [made]
    exact ⟨rfl, rfl, rfl, rfl⟩
  obtain ⟨t, q', stored', off, ran, sound₂, kept, -, left⟩ :=
    sound'.flushExpired (by rw [same.2.1]; exact out)
  have effect : Cache.Effect s.own [] c t := kept.effect
  have rest : Cache.Remains s.own [] s.cache t := by
    refine ⟨fun r out there => ?_, fun r out there => ?_, fun r mem out => ?_,
      same.2.2.2 ▸ effect.casId⟩
    · rw [← same.1]
      exact effect.linked r out there
    · rw [← same.1]
      exact effect.entry r out there
    · rw [← same.1]
      exact effect.held r mem out
  refine ⟨{ s with cache := t }, ?_, .quiet ?_ rest (List.Subset.refl _) fun _ => rfl, rfl,
    effect.thread.trans (congrArg (·.thread) same.2.1), fun now two r there => ?_⟩
  · rw [Server.flushAll]
    dsimp only
    rw [← made, ran]
    rfl
  · exact h.keep ⟨q', stored', sound₂⟩ rest (List.Subset.refl _)
      (fun _ _ => Nat.le_refl _) (by rw [effect.currentTime, same.2.2.1]; exact h.now)
  · have oldest : c.oldestLive = s.cache.currentTime - 1 := by
      rw [made, now]
      rfl
    have young := left (by omega) r there
    rw [Cache.dead, Bool.or_eq_true, Cache.flushed, decide_eq_true_eq, kept.oldestLive,
      kept.currentTime, same.2.2.1, kept.time r List.not_mem_nil]
    omega

/-- A step of the clock. -/
theorem Good.tick (h : Good g s) {now : Nat} (later : s.cache.currentTime ≤ now) :
    Does g (.tick now) s { s with cache := { s.cache with currentTime := now } } .none := by
  obtain ⟨q, stored, sound⟩ := h.sound
  have rest : Cache.Remains s.own [] s.cache { s.cache with currentTime := now } :=
    ⟨fun _ _ => id, fun _ _ _ => rfl, fun _ _ _ => rfl, Nat.le_refl _⟩
  refine .quiet (h.keep ⟨q, stored, sound.queues, sound.tails, sound.count, fun p => ?_,
    sound.sorted, sound.assoc, sound.table, sound.chunks, sound.pages⟩ rest (List.Subset.refl _)
    (fun _ _ => Nat.le_refl _) (h.now.trans_le later)) rest
    (List.Subset.refl _) fun _ => rfl
  have ok := sound.items p
  exact ⟨ok.free, ok.slabbed, ok.lru, ok.used, ok.refs, ok.small, fun linked =>
    ⟨(ok.time linked).1, (ok.time linked).2.trans later⟩⟩

/-- A step of the maintenance thread. -/
theorem Good.maintain (h : Good g s) {calloced : Bool}
    (allowed : Assoc.Allowed g.hash s.cache.assoc (.maintain calloced)) :
    ∃ a, s.cache.assoc.assocMaintenanceThread g.hash g.hashBulkMove calloced = some a ∧
      Does g (.maintain calloced) s { s with cache := { s.cache with assoc := a } } .none := by
  obtain ⟨q, stored, sound⟩ := h.sound
  obtain ⟨a, ran, inv⟩ := sound.assoc.maintain g.hashBulkMove allowed
  have rest : Cache.Remains s.own [] s.cache { s.cache with assoc := a } :=
    ⟨fun _ _ => id, fun _ _ _ => rfl, fun _ _ _ => rfl, Nat.le_refl _⟩
  exact ⟨a, ran, .quiet (h.keep ⟨q, stored, sound.queues, sound.tails, sound.count, sound.items,
    sound.sorted, inv, sound.table, sound.chunks, sound.pages⟩ rest (List.Subset.refl _)
    (fun _ _ => Nat.le_refl _) h.now) rest (List.Subset.refl _)
    fun _ => rfl⟩

/-- No event fails, whatever came before. -/
theorem Good.exec (h : Good g s) (norepair : g.tailRepairTime = 0) (ready : Ready g s e) :
    ∃ t reply, s.exec g e = some (t, reply) ∧ Does g e s t reply := by
  obtain ⟨allowed, runs⟩ := ready
  rw [Server.exec.eq_def, if_neg runs]
  cases e with
  | update key flags exptime nbytes comm cas trylock page =>
      exact h.update (fun out => runs ⟨rfl, out⟩) norepair key flags exptime comm cas trylock
        allowed.1 allowed.2.1 allowed.2.2
  | complete it comm data trylock page =>
      obtain ⟨t, reply, ran, does, -⟩ := h.complete (fun out => runs ⟨rfl, out⟩) norepair
        allowed.1 trylock allowed.2.1 allowed.2.2.1 allowed.2.2.2
      exact ⟨t, reply, ran, does⟩
  | abort it comm =>
      obtain ⟨c, ran, does⟩ :=
        h.giveBack (e := .abort it comm) (own_perm_reading allowed) List.erase_subset fun _ => rfl
      exact ⟨_, _, by dsimp only; rw [ran]; rfl, does⟩
  | get key =>
      obtain ⟨t, reply, ran, does, -⟩ := h.get (fun out => runs ⟨rfl, out⟩) key allowed
      exact ⟨t, reply, ran, does⟩
  | release it =>
      obtain ⟨c, ran, does⟩ :=
        h.giveBack (e := .release it) (own_perm_writing allowed) (List.Subset.refl _) fun _ => rfl
      exact ⟨_, _, by dsimp only; rw [ran]; rfl, does⟩
  | flushAll delayed =>
      obtain ⟨t, ran, does, -⟩ := h.flushAll (fun out => runs ⟨rfl, out⟩) delayed
      exact ⟨t, _, ran, does⟩
  | tick now => exact ⟨_, _, rfl, h.tick allowed.1⟩
  | maintain calloced =>
      obtain ⟨a, ran, does⟩ := h.maintain allowed
      exact ⟨_, _, by dsimp only; rw [ran]; rfl, does⟩

end Events

/-! ## Runs -/

/-- The server after its start, with a hash table of the power `n`. -/
def start (n now : Nat) : Server where
  cache := {
    item := fun _ => {}
    next := fun _ => 0
    prev := fun _ => 0
    slots := fun _ => 0
    slCurr := fun _ => 0
    slabList := fun _ => []
    memMalloced := 0
    heads := fun _ => 0
    tails := fun _ => 0
    assoc := assocInit n
    casId := 0
    currentTime := now
    oldestLive := 0 }
  reading := []
  writing := []

/-- Nothing is asked for and nothing stored yet. -/
def Book.new : Book := ⟨fun _ => ([], 0, 0), fun _ => none⟩

variable {g} {n now : Nat} {es fs : List Event} {s t : Server} {b : Book} {key : List UInt8}
  {it p : Nat} {reply : Reply} {u : Server} {c : Book} {data : List UInt8}
  {trylock : Nat → Bool} {page : Nat → Option Nat}

theorem start_good (small : n ≤ 31) (pos : 0 < now) : Good g (start n now) where
  sound := by
    refine ⟨fun _ => [], [], ⟨fun _ => trivial, fun _ => .nil, by simp, fun i => ?_, by simp⟩,
      fun _ => rfl, fun _ => rfl, fun p => ?_, fun _ => .nil, Assoc.inv_init small, fun it => ?_,
      fun c p chunk => ?_, ⟨by simp [start], by simp [start], by simp [start]⟩⟩
    · cases i <;> rfl
    · exact ⟨by simp, by simp, by simp [start], by simp [start, own], rfl, by simp [start],
        by simp [start]⟩
    · simp [start]
    · obtain ⟨page, mem, -⟩ := chunk
      cases mem
  reading := by simp [start]
  now := pos
  cas := by simp [start]

theorem start_tells : Tells .new (start n now) := ⟨by simp [start], by simp [start]⟩

/-- A run of the server with its book. -/
theorem run_good (norepair : g.tailRepairTime = 0) {sb : Server × Book} (good : Good g sb.1)
    (tells : Tells sb.2 sb.1) (ready : Along (noted g) (fun sb e => Ready g sb.1 e) sb es) :
    ∃ after, run (noted g) sb es = some after ∧ Good g after.1 ∧ Tells after.2 after.1 := by
  refine run_total (I := fun sb : Server × Book => Good g sb.1 ∧ Tells sb.2 sb.1)
    (C := fun (sb : Server × Book) e => Ready g sb.1 e) ?_ ⟨good, tells⟩ ready
  intro sb e sound ready
  obtain ⟨good, tells⟩ := sound
  obtain ⟨t, reply, ran, does⟩ := good.exec norepair ready
  refine ⟨(t, sb.2.note e reply), ?_, does.good, does.tells _ tells⟩
  rw [noted, ran]
  rfl

/-! ### A small server -/

/-- One class, with three chunks a page. -/
def small : Settings where
  hash key := UInt32.ofNat (key.headD 0).toNat
  hashBulkMove := 1
  size _ := 128
  perslab _ := 3
  powerLargest := 1
  memLimit := 384
  evictToFree := true
  useCas := true
  tailRepairTime := 0
  size_pos _ := by decide
  perslab_pos _ := by decide
  power_pos := by decide
  power_lt := by decide

/-- A client stores a value; the first item has a page. -/
def storing (it : Nat) (comm : StoreCmd) (key data : List UInt8) (page : Option Nat) :
    List Event :=
  [.update key 0 0 data.length comm 0 (fun _ => true) fun _ => page,
    .complete it comm data (fun _ => true) fun _ => none]

/-- A value, another one, and a third that is put behind the first: the second makes way. -/
def appended : List Event :=
  storing 1280 .set [97] [120, 13, 10] (some 1024) ++ storing 1152 .set [98] [121, 13, 10] none ++
    storing 1024 .append [97] [122, 13, 10] none

/-- A value that is handed out. -/
def sent : List Event := storing 1280 .set [97] [120, 13, 10] (some 1024) ++ [.get [97]]

/-- Another value with the same key. -/
def replaced : List Event := storing 1152 .set [97] [121, 13, 10] none

/-- A client that was shown the value stores another one, with the cas id. -/
def asking : List Event := [.update [97] 0 0 3 .cas 1 (fun _ => true) fun _ => none]

/-- The data of the other value. -/
def swap : Event := .complete 1152 .cas [121, 13, 10] (fun _ => true) fun _ => none

/-- The state behind a run of the small server. -/
def behind (sb : Server × Book) (es : List Event) : Server × Book :=
  (run (noted small) sb es).getD sb

theorem run_behind {sb : Server × Book} {es : List Event}
    (ends : (run (noted small) sb es).isSome = true) :
    run (noted small) sb es = some ((behind sb es).1, (behind sb es).2) := by
  obtain ⟨after, ran⟩ := Option.isSome_iff_exists.mp ends
  rw [behind, ran]
  rfl

/-- The state of the small server behind events from its start. -/
def after (es : List Event) : Server × Book := behind (start 1 2, .new) es

theorem run_after {es : List Event}
    (ends : (run (noted small) (start 1 2, .new) es).isSome = true) :
    run (noted small) (start 1 2, .new) es = some ((after es).1, (after es).2) :=
  run_behind ends

theorem ready_sent :
    Along (noted small) (fun sb e => Ready small sb.1 e) (start 1 2, .new) sent := by
  decide +kernel

theorem ready_appended :
    Along (noted small) (fun sb e => Ready small sb.1 e) (start 1 2, .new) appended := by
  decide +kernel

/-! ### What holds in every run -/

/-- A reached state is a good one. -/
theorem reached (norepair : g.tailRepairTime = 0) (small : n ≤ 31) (pos : 0 < now)
    (ready : Along (noted g) (fun sb e => Ready g sb.1 e) (start n now, .new) es)
    (ran : run (noted g) (start n now, .new) es = some (s, b)) : Good g s ∧ Tells b s := by
  obtain ⟨after, ran', good, tells⟩ :=
    run_good norepair (start_good small pos) start_tells ready
  cases ran.symm.trans ran'
  exact ⟨good, tells⟩

end Server

end Shang.Memcached

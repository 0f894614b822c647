import Shang.Lib.CString
import Mathlib.Data.List.Basic
import Mathlib.Tactic.Linarith

/-!
# The channel list of the net radio

`thr_list_create` of `server/thr_list.c` packs the channel list into one
datagram: the byte `CHNID_LIST`, then for each channel its id in one byte and its
description with the final NUL. `deal_data` of `client/client.c` walks through
that datagram with a pointer and the number of bytes left, and prints what it
finds.

A buffer is the list of its bytes. A read or a write outside it has no meaning
in C, and makes the function's value `none` here. The two programs do not agree
on the id: it is a `uint8_t` in `include/proto.h`, but the client reads it
through a plain `char`, which is signed.
-/

namespace Shang.Netradio

open Lib

def NR_CHN : Nat := 200

def CHNID_LIST : UInt8 := 0

def MINCHNID : Nat := 1

def MAXMSG : Nat := 65536 - 20 - 8

def MAXENTRY : Nat := MAXMSG - 1

/-- `struct mlib_chn_st` -/
structure MlibChn where
  chnid : UInt8
  desc : List UInt8

/-- The static variables of `thr_list.c`. -/
structure ThrList where
  lsize : Nat
  sbuf : Option (List UInt8)

/-- Store the bytes `c` at `p`. -/
def writeAt (b : List UInt8) (p : Nat) (c : List UInt8) : Option (List UInt8) :=
  if p + c.length ≤ b.length then some (splice b p c) else none

/-- `strlen` of the string at `p`, which must end inside the buffer. -/
def strlen (b : List UInt8) (p : Nat) : Option Nat :=
  if 0 ∈ b.drop p then some (cstr b p).length else none

/-- The first loop of `thr_list_create`. -/
def countLoop (lsize : Nat) : List MlibChn → Nat
  | [] => lsize
  | chn :: listptr => countLoop (lsize + (chn.desc.length + 2)) listptr

/-- The second loop, from the channel `i` on. -/
def fillLoop (sbuf : List UInt8) (pos i : Nat) : List MlibChn → Option (List UInt8)
  | [] => some sbuf
  | chn :: listptr => do
    let sbuf ← writeAt sbuf pos [UInt8.ofNat i]
    let sbuf ← writeAt sbuf (pos + 1) (chn.desc ++ [0])
    let len ← strlen sbuf (pos + 1)
    fillLoop sbuf (pos + 1 + (len + 1)) (i + 1) listptr

/-- The static variables after `thr_list_create` and its result. `malloc` gives
the bytes that are in a new block, and `err` is the result of `pthread_create`. -/
def thrListCreate (s : ThrList) (listptr : List MlibChn) (malloc : Nat → Option (Nat → UInt8))
    (err : Int) : Option (ThrList × Int) :=
  let lsize := countLoop s.lsize listptr + 1
  match malloc lsize with
  | none => some (⟨lsize, none⟩, -1)
  | some fresh => do
    let sbuf ← writeAt ((List.range lsize).map fresh) 0 [CHNID_LIST]
    let sbuf ← fillLoop sbuf 1 MINCHNID listptr
    some (⟨lsize, some sbuf⟩, if err = 0 then 0 else -2)

/-- What `deal_data` has printed of a list, where its pointer is and how many
bytes it takes to be left. -/
structure Shown where
  printed : List (Int × List UInt8)
  pos : Nat
  size : Int

/-- The number that a byte read through a plain `char` stands for. -/
def charVal (x : UInt8) : Int :=
  if x.toNat < 128 then x.toNat else x.toNat - 256

/-- The loop of `deal_data` over the entries. All the bytes that it reads come
before the pointer it ends with. -/
def showLoop (listBuf : List UInt8) (pos : Nat) (size : Int) : Option Shown :=
  if 1 < size then do
    let id ← listBuf[pos]?
    let len ← strlen listBuf (pos + 1)
    let rest ← showLoop listBuf (pos + 1 + (len + 1)) (size - 1 - (len + 1))
    some { rest with printed := (charVal id, cstr listBuf (pos + 1)) :: rest.printed }
  else
    some ⟨[], pos, size⟩
termination_by size.toNat

/-- The buffer of `deal_data` after it was cleared and the datagram received. -/
def recvList (datagram : List UInt8) : List UInt8 :=
  splice (List.replicate MAXENTRY 0) 0 (datagram.take MAXENTRY)

/-- What `deal_data` does with a datagram while no channel is chosen. -/
def dealData (datagram : List UInt8) : Option Shown :=
  if (recvList datagram)[0]? = some CHNID_LIST then
    showLoop (recvList datagram) 1 (datagram.take MAXENTRY).length
  else
    some ⟨[], 0, (datagram.take MAXENTRY).length⟩

/-! ## The bytes of the list -/

variable {b c front mid rest s : List UInt8} {i n p : Nat} {l : List MlibChn} {x : UInt8}

/-- The entries of the channels from `i` on. -/
def entries (i : Nat) : List MlibChn → List UInt8
  | [] => []
  | chn :: l => UInt8.ofNat i :: (chn.desc ++ 0 :: entries (i + 1) l)

/-- The datagram for a channel list. -/
def encoding (l : List MlibChn) : List UInt8 :=
  CHNID_LIST :: entries MINCHNID l

/-- The pairs of an id and a description that the client should print. -/
def numbered (f : Nat → Int) (i : Nat) : List MlibChn → List (Int × List UInt8)
  | [] => []
  | chn :: l => (f i, chn.desc) :: numbered f (i + 1) l

/-- The descriptions are strings. -/
def Strings (l : List MlibChn) : Prop :=
  ∀ chn ∈ l, 0 ∉ chn.desc

theorem writeAt_append (front : List UInt8) (room : c.length ≤ rest.length) :
    writeAt (front ++ rest) front.length c = some (front ++ (c ++ rest.drop c.length)) := by
  unfold writeAt
  rw [if_pos (by simp [room]), splice, List.take_left, List.drop_append,
    List.drop_eq_nil_of_le (by omega), List.nil_append, Nat.add_sub_cancel_left, List.append_assoc]

theorem cstr_append (front rest : List UInt8) (text : 0 ∉ s) :
    cstr (front ++ (s ++ 0 :: rest)) front.length = s := by
  unfold cstr
  rw [List.drop_left, List.takeWhile_append_of_pos, List.takeWhile_cons_of_neg (by simp),
    List.append_nil]
  intro x mem
  rw [decide_eq_true_iff]
  rintro rfl
  exact text mem

theorem strlen_append (front rest : List UInt8) (text : 0 ∉ s) :
    strlen (front ++ (s ++ 0 :: rest)) front.length = some s.length := by
  unfold strlen
  rw [List.drop_left, if_pos (by simp), cstr_append front rest text]

theorem countLoop_eq (i : Nat) : countLoop n l = n + (entries i l).length := by
  induction l generalizing n i with
  | nil => rfl
  | cons chn l ih =>
      unfold countLoop entries
      rw [ih (i + 1)]
      simp only [List.length_cons, List.length_append]
      omega

/-- The second loop writes the entries and nothing else. -/
theorem fillLoop_eq (front rest : List UInt8) (i : Nat) (text : Strings l)
    (room : (entries i l).length ≤ rest.length) :
    fillLoop (front ++ rest) front.length i l
      = some (front ++ (entries i l ++ rest.drop (entries i l).length)) := by
  induction l generalizing front rest i with
  | nil => rfl
  | cons chn l ih =>
      unfold entries at room ⊢
      simp only [List.length_cons, List.length_append] at room
      have idPut := writeAt_append front (show [UInt8.ofNat i].length ≤ rest.length by
        rw [List.length_singleton]
        omega)
      have descPut := writeAt_append (front ++ [UInt8.ofNat i])
        (show (chn.desc ++ [0]).length ≤ (rest.drop 1).length by
          simp only [List.length_append, List.length_singleton, List.length_drop]
          omega)
      have counted := strlen_append (front ++ [UInt8.ofNat i])
        ((rest.drop 1).drop (chn.desc ++ [0]).length) (text chn List.mem_cons_self)
      have next := ih (front ++ [UInt8.ofNat i] ++ (chn.desc ++ [0]))
        ((rest.drop 1).drop (chn.desc ++ [0]).length) (i + 1)
        (fun c mem => text c (List.mem_cons_of_mem chn mem)) (by
          simp only [List.length_append, List.length_singleton, List.length_drop]
          omega)
      have total : 1 + (chn.desc.length + 1) + (entries (i + 1) l).length =
          (UInt8.ofNat i :: (chn.desc ++ 0 :: entries (i + 1) l)).length := by
        simp only [List.length_cons, List.length_append]
        omega
      simp only [List.append_assoc, List.cons_append, List.nil_append, List.length_append,
        List.length_cons, List.length_nil, List.drop_drop, Nat.zero_add]
        at idPut descPut counted next
      unfold fillLoop
      simp only [idPut, descPut, counted, Option.bind_eq_bind, Option.bind_some]
      rw [← total, Nat.add_assoc, Nat.add_comm 1 (chn.desc.length + 1)]
      rw [Nat.add_comm 1 (chn.desc.length + 1)] at next
      simpa only [List.append_assoc, List.cons_append] using next

/-- The datagram that `thr_list_create` builds. -/
theorem thrListCreate_eq (fresh : Nat → UInt8) (malloc : Nat → Option (Nat → UInt8)) (err : Int)
    (text : Strings l) (granted : malloc (encoding l).length = some fresh) :
    thrListCreate ⟨0, none⟩ l malloc err =
      some (⟨(encoding l).length, some (encoding l)⟩, if err = 0 then 0 else -2) := by
  have size : countLoop 0 l + 1 = (encoding l).length := by
    rw [countLoop_eq MINCHNID, Nat.zero_add]
    rfl
  unfold thrListCreate
  simp only [size, granted]
  obtain ⟨x, rest, block⟩ : ∃ x rest, (List.range (encoding l).length).map fresh = x :: rest :=
    ⟨fresh 0, _, by rw [encoding, List.length_cons, List.range_succ_eq_map, List.map_cons]⟩
  have restLen : rest.length = (entries MINCHNID l).length := by
    have len := congrArg List.length block
    simpa [encoding] using len.symm
  have first : writeAt (x :: rest) 0 [CHNID_LIST] = some (CHNID_LIST :: rest) :=
    writeAt_append [] (by simp)
  have filled := fillLoop_eq [CHNID_LIST] rest MINCHNID text restLen.ge
  rw [← restLen, List.drop_length, List.append_nil] at filled
  rw [block, first, Option.bind_eq_bind, Option.bind_some]
  exact congrArg (Option.bind · _) filled

/-! ## What the client prints -/

/-- The loop of `deal_data` prints the entries and stops behind the last one,
whatever follows them. -/
theorem showLoop_eq (front rest : List UInt8) (i : Nat) (text : Strings l) :
    showLoop (front ++ (entries i l ++ rest)) front.length ((entries i l).length + 1) =
      some ⟨numbered (fun i => charVal (UInt8.ofNat i)) i l,
        front.length + (entries i l).length, 1⟩ := by
  induction l generalizing front i with
  | nil =>
      unfold showLoop
      rfl
  | cons chn l ih =>
      have noNul := text chn List.mem_cons_self
      have next := ih (front ++ [UInt8.ofNat i] ++ (chn.desc ++ [0])) (i + 1)
        fun c mem => text c (List.mem_cons_of_mem chn mem)
      have counted := strlen_append (front ++ [UInt8.ofNat i]) (entries (i + 1) l ++ rest) noNul
      have read := cstr_append (front ++ [UInt8.ofNat i]) (entries (i + 1) l ++ rest) noNul
      simp only [List.append_assoc, List.cons_append, List.nil_append, List.length_append,
        List.length_cons, List.length_nil, Nat.zero_add] at next counted read
      have here : (front ++ UInt8.ofNat i :: (chn.desc ++ 0 :: (entries (i + 1) l ++ rest)))[
          front.length]? = some (UInt8.ofNat i) := by
        rw [List.getElem?_append_right (Nat.le_refl _), Nat.sub_self]
        rfl
      have left : ((entries i (chn :: l)).length : Int) + 1 - 1 - (chn.desc.length + 1) =
          (entries (i + 1) l).length + 1 := by
        simp only [entries, List.length_cons, List.length_append]
        omega
      have more : (1 : Int) < (entries i (chn :: l)).length + 1 := by
        simp only [entries, List.length_cons]
        omega
      have behind : front.length + (entries i (chn :: l)).length =
          front.length + (chn.desc.length + 1 + 1) + (entries (i + 1) l).length := by
        simp only [entries, List.length_cons, List.length_append]
        omega
      have split : front ++ (entries i (chn :: l) ++ rest) =
          front ++ UInt8.ofNat i :: (chn.desc ++ 0 :: (entries (i + 1) l ++ rest)) := by
        simp only [entries, List.cons_append, List.append_assoc]
      unfold showLoop
      rw [if_pos more, behind, split, here, counted]
      simp only [Option.bind_eq_bind, Option.bind_some, left, read]
      rw [Nat.add_assoc, Nat.add_comm 1, next]
      rfl

theorem recvList_eq (fits : b.length ≤ MAXENTRY) :
    recvList b = b ++ List.replicate (MAXENTRY - b.length) 0 := by
  unfold recvList splice
  rw [List.take_of_length_le fits, List.take_zero, List.nil_append, Nat.zero_add,
    List.drop_replicate]

theorem dealData_eq (text : Strings l) (fits : (encoding l).length ≤ MAXENTRY) :
    dealData (encoding l) = some ⟨numbered (fun i => charVal (UInt8.ofNat i)) MINCHNID l,
      (encoding l).length, 1⟩ := by
  have shown := showLoop_eq [CHNID_LIST] (List.replicate (MAXENTRY - (encoding l).length) 0)
    MINCHNID text
  have size : ((encoding l).length : Int) = (entries MINCHNID l).length + 1 := by
    rw [encoding, List.length_cons]
    rfl
  unfold dealData
  rw [recvList_eq fits, List.take_of_length_le fits, size, if_pos (by rfl)]
  rw [show [CHNID_LIST].length + (entries MINCHNID l).length = (encoding l).length from
    Nat.add_comm _ _] at shown
  exact shown

/-- Read through a plain `char` an id is itself only up to 127. -/
theorem charVal_ofNat (small : i < 256) : charVal (UInt8.ofNat i) = i ↔ i < 128 := by
  have byte : (UInt8.ofNat i).toNat = i := by
    rw [UInt8.toNat_ofNat', Nat.mod_eq_of_lt small]
  unfold charVal
  rw [byte]
  split <;> omega

theorem numbered_eq_iff (small : i + l.length ≤ 256) :
    numbered (fun i => charVal (UInt8.ofNat i)) i l = numbered Nat.cast i l ↔
      l = [] ∨ i + l.length ≤ 128 := by
  induction l generalizing i with
  | nil => simp [numbered]
  | cons chn l ih =>
      rw [List.length_cons] at small ⊢
      have rest := ih (i := i + 1) (by omega)
      have here := charVal_ofNat (i := i) (by omega)
      simp only [numbered, List.cons.injEq, Prod.mk.injEq, here, rest, and_true, reduceCtorEq,
        false_or]
      cases l with
      | nil =>
          simp only [List.length_nil, true_or, and_true]
          omega
      | cons other l =>
          simp only [List.length_cons, reduceCtorEq, false_or]
          omega

/-- The channels `1, 2, ...` with their descriptions. -/
def channels (l : List MlibChn) : List (Int × List UInt8) :=
  numbered Nat.cast MINCHNID l

/-- The datagram that the server builds for `l` is decoded into the channels of
`l`, and the loop ends right behind it and has read nothing else: it does the
same whatever comes after the datagram. -/
def RoundTrip (l : List MlibChn) (fresh : Nat → UInt8) (err : Int) : Prop :=
  ∃ s result datagram, thrListCreate ⟨0, none⟩ l (fun _ => some fresh) err = some (s, result) ∧
    s.sbuf = some datagram ∧ s.lsize = datagram.length ∧
    dealData datagram = some ⟨channels l, s.lsize, 1⟩ ∧
    ∀ rest, showLoop (datagram ++ rest) 1 s.lsize = some ⟨channels l, s.lsize, 1⟩

theorem channels_iff (few : l.length ≤ NR_CHN) :
    numbered (fun i => charVal (UInt8.ofNat i)) MINCHNID l = channels l ↔ l.length ≤ 127 := by
  unfold NR_CHN at few
  unfold channels
  rw [numbered_eq_iff (by unfold MINCHNID; omega)]
  unfold MINCHNID
  cases l with
  | nil => simp
  | cons chn l =>
      simp only [reduceCtorEq, false_or]
      omega

/-- All that can go wrong is what the client prints. -/
theorem roundTrip_iff_printed (fresh : Nat → UInt8) (err : Int) (text : Strings l)
    (fits : (encoding l).length ≤ MAXENTRY) :
    RoundTrip l fresh err ↔
      numbered (fun i => charVal (UInt8.ofNat i)) MINCHNID l = channels l := by
  have built := thrListCreate_eq fresh (fun _ => some fresh) err text rfl
  have dealt := dealData_eq text fits
  constructor
  · rintro ⟨s, result, datagram, created, buffer, -, decoded, -⟩
    rw [built] at created
    obtain ⟨rfl, -⟩ := Prod.mk.inj (Option.some.inj created)
    obtain rfl := Option.some.inj buffer
    rw [dealt] at decoded
    exact congrArg Shown.printed (Option.some.inj decoded)
  · intro same
    rw [same] at dealt
    refine ⟨_, _, _, built, rfl, rfl, dealt, fun rest => ?_⟩
    have shown := showLoop_eq [CHNID_LIST] rest MINCHNID text
    rw [same, Nat.add_comm [CHNID_LIST].length] at shown
    exact shown

/-- The list comes through just when there are at most 127 channels. -/
theorem round_trip_iff (fresh : Nat → UInt8) (err : Int) (few : l.length ≤ NR_CHN)
    (text : Strings l) (fits : (encoding l).length ≤ MAXENTRY) :
    RoundTrip l fresh err ↔ l.length ≤ 127 :=
  (roundTrip_iff_printed fresh err text fits).trans (channels_iff few)

theorem round_trip_iff_two :
    RoundTrip [⟨1, [97, 98]⟩, ⟨2, []⟩] (fun _ => 7) 0 ↔ 2 ≤ 127 :=
  round_trip_iff (fun _ => 7) 0 (by decide)
    (by
      intro chn mem
      rcases List.mem_pair.mp mem with rfl | rfl <;> decide)
    (by decide)

/-- Of 128 channels the last one comes out with another number. -/
theorem round_trip_fails :
    ∃ l, l.length = 128 ∧ l.length ≤ NR_CHN ∧ Strings l ∧ (encoding l).length ≤ MAXENTRY ∧
      ¬ RoundTrip l (fun _ => 0) 0 := by
  have text : Strings (List.replicate 128 ⟨1, [97]⟩) := by
    intro chn mem
    rw [List.eq_of_mem_replicate mem]
    decide
  have fits : (encoding (List.replicate 128 ⟨1, [97]⟩)).length ≤ MAXENTRY := by
    decide +kernel
  have few : (List.replicate 128 (⟨1, [97]⟩ : MlibChn)).length ≤ NR_CHN := by decide +kernel
  refine ⟨List.replicate 128 ⟨1, [97]⟩, List.length_replicate, few, text, fits, fun whole => ?_⟩
  have small := (channels_iff few).mp ((roundTrip_iff_printed _ 0 text fits).mp whole)
  rw [List.length_replicate] at small
  omega

end Shang.Netradio

/-
The running sum of a frame (`storage/buffer_pool`: `latched_page.rs`, `chains.rs`, `reconcile_access.rs`,
`partition.rs`).

A leaf's frame keeps the number of bytes that the live heads of its chains would take as cells. Whoever changes the
chains changes the sum with them, by the difference of one chain or by adding up anew. A flip of Pending entries has two
phases: it prepares new chains from a snapshot, and swaps them in later if the old ones are still there; others act in
between.

An `Arc` is its address and what stands there. Nothing changes what a shared Arc points to, so two of them that are
`ptr_eq` are equal. The calls are those of a handle with the exclusive latch; on another handle they change nothing.

Result: `running_sum_exact`. After any sequence of mutations the sum is what adding up the chains gives, if no list of
chains that is swapped in names a key twice. A flip prepares no such list; `swap_counts_twice` is what a caller with
such a list gets.
-/
import Mathlib.Data.UInt
import Mqlite.Btree.Node
import Mqlite.Lib.Run
import Mqlite.Mvcc.PendingInstall

namespace Mqlite.Storage

open Lib Mvcc List OrdMap

open Btree (OVERFLOW_THRESHOLD PAGE_SIZE_LEAF)

def SLOT_POINTER_BYTES : ℕ := 2
def CELL_KEY_LEN_BYTES : ℕ := 2
def CELL_VALUE_TYPE_BYTES : ℕ := 1
def CELL_INLINE_LEN_BYTES : ℕ := 4
def CELL_OVERFLOW_REF_BYTES : ℕ := 8
def PAGE_TYPE_LEAF : Byte := 2

/-- `Arc<VecDeque<VersionEntry>>` -/
structure Arc where
  ptr : ℕ
  chain : Chain
deriving DecidableEq

abbrev Deltas := OrdMap Key Arc

structure Frame where
  data : Bytes
  deltas : Deltas
  liveDeltaPayloadBytes : UInt64

/-! ## The sum -/

def chainLiveHeadBytes (key : Key) (c : Chain) : UInt64 :=
  match liveHead c with
  | none => 0
  | some e =>
    if e.isTombstone then 0
    else
      let valueBytes := match e.data with
        | .inline bytes =>
          if bytes.length > OVERFLOW_THRESHOLD then CELL_OVERFLOW_REF_BYTES else CELL_INLINE_LEN_BYTES + bytes.length
        | .overflow _ _ => CELL_OVERFLOW_REF_BYTES
      .ofNat (SLOT_POINTER_BYTES + CELL_KEY_LEN_BYTES + key.length + CELL_VALUE_TYPE_BYTES + valueBytes)

def frameLiveDeltaPayloadBytes (deltas : Deltas) : UInt64 :=
  (deltas.entries.map fun p => chainLiveHeadBytes p.1 p.2.chain).sum

/-- a slot that is empty counts nothing -/
def slotBytes (key : Key) (slot : Option Arc) : UInt64 := (slot.map fun arc => chainLiveHeadBytes key arc.chain).getD 0

/-! ## Mutations -/

structure PreparedChainSwap where
  key : Key
  newChain : Arc
  expectedOld : Arc
deriving DecidableEq

inductive SwapOutcome where
  | success
  | conflict
deriving DecidableEq

namespace Frame

/-- a page that was just read from disk -/
def load (data : Bytes) : Frame := ⟨data, .empty, 0⟩

def withChain (frame : Frame) (key : Key) (f : Option Arc → Option Arc) : Frame :=
  let slot := f (frame.deltas.get? key)
  let removed := frame.deltas.erase key
  { frame with
    deltas := slot.elim removed (removed.insert key)
    liveDeltaPayloadBytes := frame.liveDeltaPayloadBytes + slotBytes key slot - slotBytes key (frame.deltas.get? key) }

def withAllChains (frame : Frame) (f : Deltas → Deltas) : Frame :=
  { frame with deltas := f frame.deltas, liveDeltaPayloadBytes := frameLiveDeltaPayloadBytes (f frame.deltas) }

/-- the second pass of a swap, for one chain -/
def installSwap (frame : Frame) (swap : PreparedChainSwap) : Frame :=
  { frame with
    deltas := frame.deltas.insert swap.key swap.newChain
    liveDeltaPayloadBytes := frame.liveDeltaPayloadBytes + chainLiveHeadBytes swap.key swap.newChain.chain -
      chainLiveHeadBytes swap.key swap.expectedOld.chain }

def trySwapChainsIfUnchanged (frame : Frame) (prepared : List PreparedChainSwap) : Frame × SwapOutcome :=
  if prepared.all fun swap => frame.deltas.get? swap.key = some swap.expectedOld then
    (prepared.foldl installSwap frame, .success)
  else (frame, .conflict)

/-- the keys with a Pending entry of the transaction; a clone of each chain is flipped. `alloc` gives the clones'
addresses. -/
def flipPhaseAPrepare (frame : Frame) (txnId : TxnId) (commitTs : Option Ts) (alloc : Key → ℕ) :
    List PreparedChainSwap :=
  (frame.deltas.entries.filter fun p => p.2.chain.any (VersionEntry.isPendingOf txnId)).map fun p =>
    ⟨p.1, ⟨alloc p.1, flipPendingInChain p.2.chain txnId commitTs⟩, p.2⟩

/-- an image that is not one of a leaf is refused -/
def replaceLeafAndChains (frame : Frame) (newBase : Bytes) (retainedChains : Deltas) : Frame :=
  if newBase.length ≠ PAGE_SIZE_LEAF ∨ newBase.head? ≠ some PAGE_TYPE_LEAF then frame
  else ⟨newBase, retainedChains, frameLiveDeltaPayloadBytes retainedChains⟩

/-- the chains without Aborted entries and without those that no reader above the horizon needs -/
def prunedChains (deltas : Deltas) (ort : Ts) (alloc : Key → ℕ) : List (Key × Arc) :=
  deltas.entries.filterMap fun p =>
    match p.2.chain.filter fun e => e.state ≠ .aborted ∧ (e.stopTs = Ts.MAX ∨ ort < e.stopTs) with
    | [] => none
    | kept => some (p.1, ⟨alloc p.1, kept⟩)

def reconcileFrameAt (frame : Frame) (ort : Ts) (alloc : Key → ℕ) : Frame :=
  let retained := prunedChains frame.deltas ort alloc
  { frame with
    deltas := .ofList retained
    liveDeltaPayloadBytes := (retained.map fun p => chainLiveHeadBytes p.1 p.2.chain).sum }

end Frame

/-- the frame, and what flips have prepared and not swapped in yet -/
structure FrameState where
  frame : Frame
  prepared : List (List PreparedChainSwap)

inductive Mutation where
  | withChain (key : Key) (f : Option Arc → Option Arc)
  | withAllChains (f : Deltas → Deltas)
  -- `some ts`: to Committed, `none`: to Aborted
  | flipPrepare (txnId : TxnId) (commitTs : Option Ts) (alloc : Key → ℕ)
  | flipSwap (i : ℕ)
  -- a list of the caller's own
  | trySwapChainsIfUnchanged (prepared : List PreparedChainSwap)
  | replaceLeafAndChains (newBase : Bytes) (retainedChains : Deltas)
  | reconcileFrameAt (ort : Ts) (alloc : Key → ℕ)
  -- the page is evicted and read again
  | reload (data : Bytes)

namespace FrameState

def load (data : Bytes) : FrameState := ⟨.load data, []⟩

def step (s : FrameState) : Mutation → Option FrameState
  | .withChain key f => some { s with frame := s.frame.withChain key f }
  | .withAllChains f => some { s with frame := s.frame.withAllChains f }
  | .flipPrepare txnId commitTs alloc =>
    some { s with prepared := s.frame.flipPhaseAPrepare txnId commitTs alloc :: s.prepared }
  | .flipSwap i => (s.prepared[i]?).map fun swaps => ⟨(s.frame.trySwapChainsIfUnchanged swaps).1, s.prepared.eraseIdx i⟩
  | .trySwapChainsIfUnchanged prepared => some { s with frame := (s.frame.trySwapChainsIfUnchanged prepared).1 }
  | .replaceLeafAndChains newBase chains => some { s with frame := s.frame.replaceLeafAndChains newBase chains }
  | .reconcileFrameAt ort alloc => some { s with frame := s.frame.reconcileFrameAt ort alloc }
  | .reload data => some { s with frame := .load data }

end FrameState

def PreparedChainSwap.Distinct (prepared : List PreparedChainSwap) : Prop := (prepared.map PreparedChainSwap.key).Nodup

instance (prepared : List PreparedChainSwap) : Decidable (PreparedChainSwap.Distinct prepared) :=
  inferInstanceAs (Decidable (Nodup _))

/-- the caller's list names no key twice -/
def Mutation.Ok : Mutation → Prop
  | .trySwapChainsIfUnchanged prepared => PreparedChainSwap.Distinct prepared
  | _ => True

/-! ## One chain in the sum -/

open UInt64.CommRing in
/-- the chain of a key, and the others -/
theorem frame_eq_slot_add (deltas : Deltas) (key : Key) :
    frameLiveDeltaPayloadBytes deltas = slotBytes key (deltas.get? key) +
      frameLiveDeltaPayloadBytes (deltas.erase key) := by
  cases hget : deltas.get? key with
  | none =>
    rw [frameLiveDeltaPayloadBytes, frameLiveDeltaPayloadBytes, erase_of_get?_none hget]
    exact (zero_add _).symm
  | some arc => exact ((erase_perm hget).map fun p => chainLiveHeadBytes p.1 p.2.chain).sum_eq

theorem frame_insert (deltas : Deltas) (key : Key) (arc : Arc) :
    frameLiveDeltaPayloadBytes (deltas.insert key arc) = slotBytes key (some arc) +
      frameLiveDeltaPayloadBytes (deltas.erase key) := by
  rw [frame_eq_slot_add _ key, get?_insert, if_pos rfl, frameLiveDeltaPayloadBytes, entries_erase_insert]
  rfl

/-! ## The invariant -/

/-- the sum is exact, and a flip has prepared each chain once -/
structure SumInv (s : FrameState) : Prop where
  exact : s.frame.liveDeltaPayloadBytes = frameLiveDeltaPayloadBytes s.frame.deltas
  distinct : ∀ swaps ∈ s.prepared, PreparedChainSwap.Distinct swaps

section Steps

variable {frame : Frame} {s t : FrameState}

theorem withChain_exact (h : frame.liveDeltaPayloadBytes = frameLiveDeltaPayloadBytes frame.deltas) (key : Key)
    (f : Option Arc → Option Arc) :
    (frame.withChain key f).liveDeltaPayloadBytes = frameLiveDeltaPayloadBytes (frame.withChain key f).deltas := by
  have hslot : frameLiveDeltaPayloadBytes (frame.withChain key f).deltas =
      slotBytes key (f (frame.deltas.get? key)) + frameLiveDeltaPayloadBytes (frame.deltas.erase key) := by
    rw [Frame.withChain]
    cases f (frame.deltas.get? key) with
    | none => exact (UInt64.zero_add _).symm
    | some arc =>
      refine (frame_insert _ key arc).trans ?_
      rw [frameLiveDeltaPayloadBytes, erase_of_get?_none (by rw [get?_erase, if_pos rfl])]
      rfl
  rw [hslot, Frame.withChain, h, frame_eq_slot_add frame.deltas key]
  grind

/-- the chains are still there one after the other, as no key is swapped twice -/
theorem installSwaps_exact {swaps : List PreparedChainSwap}
    (h : frame.liveDeltaPayloadBytes = frameLiveDeltaPayloadBytes frame.deltas)
    (hdistinct : (swaps.map PreparedChainSwap.key).Nodup)
    (hold : ∀ swap ∈ swaps, frame.deltas.get? swap.key = some swap.expectedOld) :
    (swaps.foldl Frame.installSwap frame).liveDeltaPayloadBytes =
      frameLiveDeltaPayloadBytes (swaps.foldl Frame.installSwap frame).deltas := by
  induction swaps generalizing frame with
  | nil => exact h
  | cons swap swaps ih =>
    rw [map_cons, nodup_cons] at hdistinct
    refine ih ?_ hdistinct.2 fun other hother => ?_
    · have hbefore := frame_eq_slot_add frame.deltas swap.key
      rw [hold swap mem_cons_self] at hbefore
      rw [Frame.installSwap, frame_insert, h, hbefore]
      change slotBytes _ (some _) + _ + slotBytes _ (some _) - slotBytes _ (some _) = _
      grind
    · have hne : other.key ≠ swap.key := fun heq => hdistinct.1 (heq ▸ mem_map_of_mem hother)
      rw [Frame.installSwap, get?_insert, if_neg hne]
      exact hold other (mem_cons_of_mem _ hother)

theorem reconcileFrameAt_exact (frame : Frame) (ort : Ts) (alloc : Key → ℕ) :
    (frame.reconcileFrameAt ort alloc).liveDeltaPayloadBytes =
      frameLiveDeltaPayloadBytes (frame.reconcileFrameAt ort alloc).deltas := by
  have hsorted : (Frame.prunedChains frame.deltas ort alloc).Pairwise fun a b => a.1 < b.1 := by
    refine List.Pairwise.filterMap _ (fun a b hab a' ha b' hb => ?_) frame.deltas.sorted
    split at ha <;> cases ha
    split at hb <;> cases hb
    exact hab
  rw [frameLiveDeltaPayloadBytes, Frame.reconcileFrameAt, entries_ofList hsorted]

theorem trySwap_exact {swaps : List PreparedChainSwap}
    (h : frame.liveDeltaPayloadBytes = frameLiveDeltaPayloadBytes frame.deltas)
    (hdistinct : PreparedChainSwap.Distinct swaps) : (frame.trySwapChainsIfUnchanged swaps).1.liveDeltaPayloadBytes =
      frameLiveDeltaPayloadBytes (frame.trySwapChainsIfUnchanged swaps).1.deltas := by
  rw [Frame.trySwapChainsIfUnchanged]
  split_ifs with hold
  · exact installSwaps_exact h hdistinct fun swap hswap => of_decide_eq_true (all_eq_true.1 hold swap hswap)
  · exact h

theorem SumInv.step {m : Mutation} (h : SumInv s) (hok : m.Ok) (hstep : s.step m = some t) : SumInv t := by
  cases m with
  | withChain key f =>
    cases hstep
    exact ⟨withChain_exact h.exact key f, h.distinct⟩
  | withAllChains f | reload data =>
    cases hstep
    exact ⟨rfl, h.distinct⟩
  | flipPrepare txnId commitTs alloc =>
    cases hstep
    refine ⟨h.exact, forall_mem_cons.2 ⟨?_, h.distinct⟩⟩
    rw [PreparedChainSwap.Distinct, Frame.flipPhaseAPrepare, map_map]
    exact pairwise_map.2 ((Frame.deltas _).sorted.filter _ |>.imp ne_of_lt)
  | flipSwap i =>
    obtain ⟨swaps, hswaps, rfl⟩ := Option.map_eq_some_iff.1 hstep
    exact ⟨trySwap_exact h.exact (h.distinct swaps (mem_of_getElem? hswaps)),
      fun other hother => h.distinct other (mem_of_mem_eraseIdx hother)⟩
  | trySwapChainsIfUnchanged prepared =>
    cases hstep
    exact ⟨trySwap_exact h.exact hok, h.distinct⟩
  | replaceLeafAndChains newBase chains =>
    cases hstep
    refine ⟨?_, h.distinct⟩
    simp only [Frame.replaceLeafAndChains]
    split_ifs
    · exact h.exact
    · rfl
  | reconcileFrameAt ort alloc =>
    cases hstep
    exact ⟨reconcileFrameAt_exact _ _ _, h.distinct⟩

/-- **The running sum.** From a page that was just read, through any mutations in any order, the cached number of bytes
is the number that adding up the frame's chains gives, if no list of a caller names a key twice. -/
theorem running_sum_exact (data : Bytes) (l : List Mutation) (s : FrameState) (hok : ∀ m ∈ l, m.Ok)
    (h : run FrameState.step (.load data) l = some s) :
    s.frame.liveDeltaPayloadBytes = frameLiveDeltaPayloadBytes s.frame.deltas :=
  (run_invariant_on (I := SumInv) (fun _ _ _ => SumInv.step) ⟨rfl, fun _ hs => by cases hs⟩ hok h).exact

/-- a Pending write is flipped to Aborted, another key is written in between, and its chain is swapped by a caller -/
def abortedWrite : List Mutation :=
  let first : VersionEntry := ⟨⟨1, 0⟩, Ts.MAX, 7, .pending 7, .inline [1, 2, 3], false⟩
  let second : VersionEntry := ⟨⟨2, 0⟩, Ts.MAX, 8, .pending 8, .inline [4], false⟩
  [.withChain [5] fun _ => some ⟨0, [first]⟩, .flipPrepare 7 none fun _ => 1,
    .withChain [6] fun _ => some ⟨2, [second]⟩, .flipSwap 0,
    .trySwapChainsIfUnchanged [⟨[6], ⟨3, [first]⟩, ⟨2, [second]⟩⟩]]

theorem running_sum_exact_abort : ∃ s, run FrameState.step (.load []) abortedWrite = some s ∧
    s.frame.liveDeltaPayloadBytes = 13 ∧ frameLiveDeltaPayloadBytes s.frame.deltas = 13 := by
  have hend : (run FrameState.step (.load []) abortedWrite).map (fun s => s.frame.liveDeltaPayloadBytes) = some 13 := by
    decide
  have hok : ∀ m ∈ abortedWrite, m.Ok := by
    simp only [abortedWrite, forall_mem_cons, Mutation.Ok, true_and, not_mem_nil, false_implies, implies_true, and_true]
    decide
  obtain ⟨s, hrun, hs⟩ := Option.map_eq_some_iff.1 hend
  exact ⟨s, hrun, hs, (running_sum_exact [] abortedWrite s hok hrun).symm.trans hs⟩

/-- **A key that is named twice.** Both swaps expect the chain that is there, so the list is accepted, and the old chain
is subtracted twice. -/
theorem swap_counts_twice :
    let old : Arc := ⟨0, [⟨⟨1, 0⟩, Ts.MAX, 7, .committed, .inline [1, 2, 3], false⟩]⟩
    let new : Arc := ⟨1, [⟨⟨1, 0⟩, Ts.MAX, 7, .committed, .inline [4], false⟩]⟩
    let swap : PreparedChainSwap := ⟨[5], new, old⟩
    ∃ s, run FrameState.step (.load []) [.withChain [5] fun _ => some old, .trySwapChainsIfUnchanged [swap, swap]] =
      some s ∧ s.frame.liveDeltaPayloadBytes = 9 ∧ frameLiveDeltaPayloadBytes s.frame.deltas = 11 := by
  intro old new swap
  exact ⟨_, rfl, by decide +zetaReduce, by decide +zetaReduce⟩

end Steps

end Mqlite.Storage

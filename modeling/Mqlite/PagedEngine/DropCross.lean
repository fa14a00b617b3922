/-
Writes never cross a drop, and when they do.

When a namespace is dropped and created again between the selection and the envelope of an update, the write is staged
for the new collection. It is stopped only if the conflict check finds a live head there (`Refused`):
`writes_never_cross` concludes that in such runs no operation commits anything outside the collection it selected in. In
a new collection there is nothing to find, and the update brings its document along (`update_crosses_drop`).
-/
import Mqlite.PagedEngine.NsInv

namespace Mqlite.PagedEngine

open Lib Mvcc Publish Storage List Option NsEngine

/-! ## The theorem -/

/-- when a document selected in another collection is installed, the key has a live head there, and it is not a
committed tombstone that an insert could go over -/
def Refused (s : NsEngine) : NsAct → Prop
  | .engine (.install t a) => ∀ o ∈ s.op t, o.crosses = true → a.ident.kind = .primary →
    ∀ w ∈ (s.eng.txn t).todo, w.addr = a → (liveHead (s.eng.chain a)).isSome = true ∧
      ∀ head ∈ liveHead (s.eng.chain a), ¬ (w.expectedHead = none ∧ head.state = .committed ∧ head.isTombstone = true)
  | _ => True

instance (s : NsEngine) : (act : NsAct) → Decidable (Refused s act)
  | .engine (.install t _) => inferInstanceAs (Decidable (∀ o ∈ s.op t, _))
  | .engine (.openView) | .engine (.begin) | .engine (.select ..) | .engine (.attach ..) | .engine (.enter _)
  | .engine (.stageInsert ..) | .engine (.stageMutation ..) | .engine (.stageSec ..) | .engine (.giveUp _)
  | .engine (.register ..) | .engine (.fail _) | .engine (.durable _) | .engine (.flip ..) | .engine (.finish ..)
  | .engine (.poison) | .engine (.fold ..) | .openView | .begin .. | .beginInsert _ | .select .. | .attach .. | .enter _
  | .stage .. | .stageInsert .. | .stageSec .. | .startDdl _ | .endDdl .. => .isTrue trivial

/-- **One step.** -/
theorem nsInv_step {env : Env} {floor : Ts} {first : ℤ} (s : NsEngine) (act : NsAct) (s' : NsEngine)
    (hi : NsInv floor first s) (hc : Refused s act) (hs : s.step env act = some s') : NsInv floor first s' := by
  cases act with simp only [step] at hs
  | openView =>
    obtain ⟨eng, heng, rfl⟩ := map_eq_some_iff.1 hs
    exact hi.openView heng _
  | begin name view =>
    split at hs
    · cases hs
    · next p hfind =>
      split at hs
      · cases hs
      · next id hid =>
        obtain ⟨eng, heng, rfl⟩ := map_eq_some_iff.1 hs
        refine hi.begin heng rfl fun id' hid' => ?_
        cases hid'
        exact ⟨p, mem_of_find?_eq_some hfind, hid⟩
  | beginInsert name =>
    obtain ⟨eng, heng, rfl⟩ := map_eq_some_iff.1 hs
    exact hi.begin heng rfl fun id hid => by cases hid
  | select t key =>
    split at hs
    · next ho =>
      split_ifs at hs with hphase
      split at hs
      · cases hs
      · cases hs
        exact hi.select ho rfl hphase rfl rfl
    · cases hs
  | attach t sel =>
    split at hs
    · next ho =>
      obtain ⟨eng, heng, rfl⟩ := map_eq_some_iff.1 hs
      exact hi.attach ho rfl heng
    · cases hs
  | enter t =>
    split_ifs at hs
    split at hs
    · next ho =>
      split at hs
      · obtain ⟨eng, heng, rfl⟩ := map_eq_some_iff.1 hs
        exact hi.idle rfl (fun _ _ _ _ _ _ _ hp => by cases hp.act) heng
      · next id hid =>
        obtain ⟨eng, heng, rfl⟩ := map_eq_some_iff.1 hs
        exact hi.enter ho hid heng
    · cases hs
  | stage t cand op =>
    obtain ⟨eng, heng, rfl⟩ := map_eq_some_iff.1 hs
    exact hi.stage heng
  | stageInsert t key doc =>
    split at hs
    · next ho =>
      obtain ⟨eng, heng, rfl⟩ := map_eq_some_iff.1 hs
      exact hi.stageInsert ho rfl heng
    · cases hs
  | stageSec t indexId key op =>
    split at hs
    · next ho =>
      split_ifs at hs with hne
      obtain ⟨eng, heng, rfl⟩ := map_eq_some_iff.1 hs
      exact hi.stageSec ho rfl rfl hne heng
    · cases hs
  | engine act =>
    split_ifs at hs with hact
    obtain ⟨eng, heng, rfl⟩ := map_eq_some_iff.1 hs
    refine hi.idle (by cases act <;> first | rfl | cases hact) (fun t o q ts w ho hcross hp ha => ?_) heng
    -- an install that crosses is refused
    obtain rfl := hp.act
    obtain ⟨hsome, hnot⟩ := hc o ho hcross ha w hp.todo rfl
    obtain ⟨head, hhead⟩ := isSome_iff_exists.1 hsome
    exact hnot head hhead (hi.refused ho hcross hp ha head hhead)
  | startDdl ddl =>
    split_ifs at hs
    cases ddl with
    | create name => cases hs; exact ⟨hi.eng, ⟨hi.cat.first_le, hi.cat.settled⟩, hi.fresh,
        fun t o ho => (hi.ops t o ho).frame rfl le_rfl (fun _ hp => hp) (fun _ _ hp => ⟨hp, rfl⟩), hi.unnamed⟩
    | drop name =>
      simp only at hs
      split_ifs at hs
      cases hs
      exact ⟨hi.eng, ⟨hi.cat.first_le, hi.cat.settled⟩, hi.fresh,
        fun t o ho => (hi.ops t o ho).frame rfl le_rfl (fun _ hp => hp) (fun _ _ hp => ⟨hp, rfl⟩), hi.unnamed⟩
  | endDdl ok wall =>
    split at hs
    · cases hs
    · split at hs
      · next hd hr =>
        cases hs
        exact (hi.ddl hr).applyDdl hd none
      · cases hs

/-- the engine has just been opened; the trees of ids that are not given out yet are empty -/
structure OpenedNs (s : NsEngine) : Prop where
  eng : Opened s.eng
  epochs : s.epochs = []
  ops : ∀ t, s.op t = none
  fresh : ∀ a : Addr, s.nextId ≤ a.ident.collectionId →
    s.eng.chain a = [] ∧ s.eng.hist a.ident a.key = OrdMap.empty ∧ s.eng.cell a = none

theorem nsInv_opened {s : NsEngine} (h : OpenedNs s) : NsInv s.eng.frontier s.nextId s := by
  refine ⟨engineInv_opened h.eng, ⟨le_rfl, fun name id hid hlt p hp => ?_⟩, fun a ha x hx => ?_, fun t o ho => ?_,
    fun t _ => ?_⟩
  · rw [h.epochs] at hp; cases hp
  · rw [Engine.log, (h.fresh a ha).1, h.eng.old] at hx; cases hx
  · rw [h.ops] at ho; cases ho
  · rw [h.eng.txns]; exact ⟨rfl, rfl⟩

/-- **Writes never cross a drop.** In every run of operations, drops and re-creations in which every install that
crosses finds a live head in its way: an operation that has passed its point of no return has staged nothing outside the
collection its documents were selected in, and no committed version in any other tree is its. -/
theorem writes_never_cross (env : Env) (s₀ s : NsEngine) (l : List NsAct) (h₀ : OpenedNs s₀)
    (hl : Along (NsEngine.step env) Refused s₀ l) (hr : run (NsEngine.step env) s₀ l = some s) (t : TxnId)
    (o : Operation) (ho : s.op t = some o) (id : ℤ) (hid : o.source = some id) :
    ((s.eng.txn t).phase.durable = true → ∀ w ∈ (s.eng.txn t).writes, w.addr.ident.collectionId = id) ∧
    ∀ a, ∀ x ∈ s.eng.versions a, s₀.eng.frontier < x.startTs → x.txnId = t → a.ident.collectionId = id := by
  have hi : NsInv s₀.eng.frontier s₀.nextId s := run_invariant nsInv_step (nsInv_opened h₀) hl hr
  have hop := hi.ops t o ho
  have hfirst : (s.eng.txn t).phase.durable = true → ∀ w ∈ (s.eng.txn t).writes, w.addr.ident.collectionId = id := by
    intro hd w hw
    have htarget := hop.writes w hw
    by_contra hne
    have hcross : o.crosses = true := Operation.crosses_iff.2 ⟨id, _, hid, htarget, fun he => hne he.symm⟩
    rw [(hop.cross hcross).durable hd] at hw
    cases hw
  refine ⟨hfirst, fun a x hx hlt ht => ?_⟩
  subst ht
  have hx' : x ∈ (s.eng.chain a).map logged ++ s.eng.old a :=
    (mem_append.1 hx).elim (fun hx => mem_append_left _ ((filter_sublist.map _).subset hx)) (mem_append_right _)
  rcases hi.eng.chains.origin a x hx' with hle | ⟨q, w, -, hw, -, hwa, -⟩
  · exact absurd hlt (not_lt.2 hle)
  · rw [← hwa]
    exact hfirst (hi.eng.chains.committed a x hx hlt) w hw

/-! ## Two runs -/

/-- one namespace on a base image -/
def NsEngine.image (cell : Addr → Option VersionData) : NsEngine :=
  ⟨Engine.image cell, fun name => if name = "docs" then some 1 else none, 2, [], [], none, fun _ => none⟩

theorem openedNs_image : OpenedNs (image docCell) where
  eng := opened_image docCell
  epochs := rfl
  ops _ := rfl
  fresh a ha := by
    refine ⟨rfl, rfl, ?_⟩
    have hne : a ≠ docAddr := by
      rintro rfl
      exact absurd ha (by decide)
    exact if_neg hne

/-- the key of the document, in the collection that is created later -/
def movedAddr : Addr := ⟨⟨2, .primary⟩, [7]⟩

/-- an update selects its document; then the namespace is dropped and created again -/
def selectThenDrop : List NsAct :=
  [.openView, .begin "docs" ⟨⟨3, 0⟩, 1⟩, .select 2 [7], .attach 2 ⟨docAddr, [1], .base⟩,
    .startDdl (.drop "docs"), .endDdl true 4, .startDdl (.create "docs"), .endDdl true 5]

/-- the update goes on -/
def crossingActs (wall : UInt64) : List NsAct :=
  [.enter 2, .stage 2 ⟨⟨movedAddr, [1], .base⟩, none⟩ (.update [2]), .engine (.register 2 wall),
    .engine (.install 2 movedAddr)]

/-- another operation inserts a document with the same key -/
def insertActs : List NsAct :=
  [.beginInsert "docs", .enter 5, .stageInsert 5 [7] [8], .engine (.register 5 6)] ++
  (commitActs 5 movedAddr).map NsAct.engine

/-- the new collection has a document with the key: the update is refused -/
theorem writes_never_cross_refused :
    ∃ s, run (NsEngine.step plainEnv) (NsEngine.image docCell) (selectThenDrop ++ insertActs ++ crossingActs 7) =
      some s ∧
      (s.eng.txn 2).writes = [⟨movedAddr, .update [2], none, some .base⟩] ∧ (s.eng.txn 2).phase.durable = false := by
  have hal : Along (step plainEnv) Refused (image docCell) (selectThenDrop ++ insertActs ++ crossingActs 7) := by decide
  obtain ⟨s, hs, hop, hw⟩ : ∃ s,
      run (step plainEnv) (image docCell) (selectThenDrop ++ insertActs ++ crossingActs 7) = some s ∧
      s.op 2 = some ⟨"docs", some 1, ⟨⟨3, 0⟩, 1⟩, some 2⟩ ∧
      (s.eng.txn 2).writes = [⟨movedAddr, .update [2], none, some .base⟩] :=
    ⟨_, rfl, by decide, by decide⟩
  obtain ⟨hstay, -⟩ := writes_never_cross plainEnv _ s _ openedNs_image hal hs 2 _ hop 1 rfl
  refine ⟨s, hs, hw, ?_⟩
  by_contra hd
  have := hstay (by simpa using hd) _ (by rw [hw]; exact mem_singleton_self _)
  exact absurd this (by decide)

/-- **An update across a drop.** The document is selected in collection 1; the update of it is committed in collection
2, where there has never been a document with its key. -/
theorem update_crosses_drop :
    OpenedNs (NsEngine.image docCell) ∧ ∃ s, run (NsEngine.step plainEnv) (NsEngine.image docCell)
        (selectThenDrop ++ crossingActs 6 ++
          [.engine (.durable 2), .engine (.flip 2 movedAddr), .engine (.finish 2 true)]) = some s ∧
      s.op 2 = some ⟨"docs", some 1, ⟨⟨3, 0⟩, 1⟩, some 2⟩ ∧ (s.eng.txn 2).phase = .committed ∧
      ⟨⟨6, 0⟩, 2, .inline [2], false⟩ ∈ s.eng.versions movedAddr :=
  ⟨openedNs_image, _, rfl, by decide, by decide, by decide⟩

end Mqlite.PagedEngine

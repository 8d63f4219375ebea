/-
# Two compilations side by side

A compilation looks at its session by few means: it asks the cache and the dominance table,
and the journal is nothing to it.  How many transitions were applied before matters to a
model that is not pure.  So two compilations of one request come to the same, from sessions
that agree on the cache, the table and, unless the model is pure, that count.  One of them
may be watched more closely than the other: then it may meet a fault that the other does not
look for, and if it meets none, it finds what the other finds.

* `Views`: what is seen of either journal;
* `Views.Related`, `Views.Akin`: sessions that are the same to what comes next, of whose
  journals the same is seen;
* `Views.Excuses`: a fault of the left one, which is watched more closely;
* `Views.unroll`: **unrolling goes the same way on both sides**, up to such a fault;
* `Views.audits_audit`: so do the audits of merges, those that one side leaves out included;
* `Views.compile`: **two compilations tell the same** (`Views.Tallies`), up to such a fault.
-/

import DiagramSearch.Proofs.Outlasting
import DiagramSearch.Proofs.Overlooking

namespace DiagramSearch

variable {σ κ V : Type}

/-- Events that carry neither a value of the user's space nor a time. -/
def Event.isInner : Event σ V → Bool
  | .notice (.layerDone ..) | .notice (.dropped ..) | .notice (.merged ..)
  | .notice (.skipped ..) => true
  | .notice _ | .incumbent .. => false
  | _ => true

/-- How two sessions are looked at: what is seen of the events of either, whether the left
one may be watched more closely, in which case its notices are not looked at, and whether
the transitions applied are counted. -/
structure Views (σ V : Type) where
  left : Event σ V → Option (Event σ V)
  right : Event σ V → Option (Event σ V)
  closer : Bool
  counted : Bool
  /-- Who watches more closely applies more transitions. -/
  uncounted : closer = true → counted = false
  inner : ∀ e, e.isInner = true → left e = right e
  silent : closer = true → ∀ n, left (.notice n) = none

namespace Views

variable {w : Views σ V}

/-- The left one met a fault, and it may have been watched more closely. -/
def Excuses (w : Views σ V) (fault : Option (Fault σ V)) : Prop :=
  w.closer = true ∧ fault ≠ none

/-- The right one is watched as the left one is, or not at all. -/
def Watches (w : Views σ V) (checks checks' : Checks) : Prop :=
  checks' = checks ∨ w.closer = true ∧ checks' = .off

/-- Transitions lead to the same states on both sides. -/
def Bears (w : Views σ V) (problem : Problem σ V) : Prop :=
  problem.Pure ∨ w.counted = true

/-- Only the notices, of two sessions that are watched alike. -/
def notices (w : Views σ V) : Views σ V where
  left e := match e with
    | .notice _ => w.left e
    | _ => none
  right e := match e with
    | .notice _ => w.right e
    | _ => none
  closer := false
  counted := w.counted
  uncounted h := by cases h
  inner e he := by
    cases e with
    | notice n => exact w.inner _ he
    | _ => rfl
  silent h := by cases h

theorem filterMap_cons {e e' : Event σ V} {es es' : List (Event σ V)} (he : w.left e = w.right e')
    (hes : es.filterMap w.left = es'.filterMap w.right) :
    (e :: es).filterMap w.left = (e' :: es').filterMap w.right := by
  rw [List.filterMap_cons, List.filterMap_cons, he, hes]

/-- Two sessions of whose journals the same is seen, and which agree on all that a
compilation looks at but the cache. -/
structure Related (w : Views σ V) (s t : Session σ κ V) : Prop where
  table : s.table = t.table
  applications : w.counted = true → s.applications = t.applications
  events : s.events.filterMap w.left = t.events.filterMap w.right

theorem Related.record {s t : Session σ κ V} (h : w.Related s t) {e e' : Event σ V}
    (he : w.left e = w.right e') : w.Related (s.record e) (t.record e') :=
  ⟨h.table, h.applications, filterMap_cons he h.events⟩

/-- Whatever the caches are. -/
theorem Related.recache {s t : Session σ κ V} (h : w.Related s t) (cache cache' : Cache σ V) :
    w.Related { s with cache } { t with cache := cache' } :=
  ⟨h.table, h.applications, h.events⟩

/-- They agree on the cache, too. -/
structure Akin (w : Views σ V) (s t : Session σ κ V) : Prop extends w.Related s t where
  cache : s.cache = t.cache

namespace Akin

variable {s t a b : Session σ κ V}

theorem applied (h : w.Akin s t) : w.Akin s.applied t.applied :=
  ⟨⟨h.table, fun hcounted => congrArg (· + 1) (h.applications hcounted), h.events⟩, h.cache⟩

theorem applied_left (hcloser : w.closer = true) (h : w.Akin s t) : w.Akin s.applied t :=
  ⟨⟨h.table, fun hcounted => absurd hcounted (by simp [w.uncounted hcloser]), h.events⟩, h.cache⟩

/-- **A transition leads to the same state on both sides.** -/
theorem transition (h : w.Akin s t) {problem : Problem σ V} (hbears : w.Bears problem) (state : σ)
    (d : Decision) : problem.transition s.applications state d =
      problem.transition t.applications state d := by
  rcases hbears with hpure | hcounted
  · exact hpure _ _ _ _
  · rw [h.applications hcounted]

theorem record (h : w.Akin s t) {e e' : Event σ V} (he : w.left e = w.right e') :
    w.Akin (s.record e) (t.record e') :=
  ⟨h.toRelated.record he, h.cache⟩

theorem record_inner (h : w.Akin s t) {e : Event σ V} (he : e.isInner = true) :
    w.Akin (s.record e) (t.record e) :=
  h.record (w.inner e he)

/-- Compilations on the side start alike. -/
theorem aside (h : w.Akin s t) : w.notices.Akin s.aside t.aside :=
  ⟨⟨rfl, h.applications, rfl⟩, rfl⟩

/-- What is seen after a compilation on the side was taken over. -/
theorem filterMap_resume (s after : Session σ κ V) (view : Event σ V → Option (Event σ V)) :
    (s.resume after).events.filterMap view =
      (after.events.filterMap fun e => match e with
        | .notice _ => view e
        | _ => none) ++ s.events.filterMap view := by
  unfold Session.resume
  dsimp only
  rw [List.filterMap_append, List.filterMap_filter]
  refine congrArg (fun view' => after.events.filterMap view' ++ s.events.filterMap view)
    (funext fun e => ?_)
  cases e <;> rfl

/-- What is taken over from compilations on the side is their notices. -/
theorem resume (h : w.Akin s t) (hafter : w.notices.Akin a b) :
    w.Akin (s.resume a) (t.resume b) := by
  refine ⟨⟨h.table, hafter.applications, ?_⟩, h.cache⟩
  rw [filterMap_resume, filterMap_resume, h.events]
  exact congrArg (· ++ t.events.filterMap w.right) hafter.events

/-- Who watches more closely may compile on the side alone. -/
theorem resume_left (hcloser : w.closer = true) (h : w.Akin s t) : w.Akin (s.resume a) t := by
  refine ⟨⟨h.table, fun hcounted => absurd hcounted (by simp [w.uncounted hcloser]), ?_⟩,
    h.cache⟩
  rw [filterMap_resume, h.events]
  refine (congrArg (· ++ t.events.filterMap w.right) (List.filterMap_eq_nil_iff.2 ?_)).trans
    (List.nil_append _)
  intro e _
  cases e with
  | notice n => exact w.silent hcloser n
  | _ => rfl

variable [BEq σ] [Value V]

theorem remember (h : w.Akin s t) (state : σ) (depth : Nat) (threshold : Threshold V) :
    w.Akin (s.remember state depth threshold) (t.remember state depth threshold) := by
  unfold Session.remember
  dsimp only
  rw [h.cache]
  exact ⟨⟨h.table, h.applications,
    (h.record_inner (e := .remembered state depth threshold _) rfl).events⟩, rfl⟩

/-- The same question is given the same answer. -/
theorem check [BEq κ] (h : w.Akin s t) (rel : Option (Dominance σ κ)) (state : σ) (depth : Nat)
    (value : V) : ∃ session, w.Akin (s.check rel state depth value).2 session ∧
      t.check rel state depth value = ((s.check rel state depth value).1, session) := by
  have hverdict : (t.check rel state depth value).1 = (s.check rel state depth value).1 := by
    unfold Session.check
    rw [h.table]
  refine ⟨(t.check rel state depth value).2, ⟨⟨?_, h.applications, ?_⟩, h.cache⟩,
    Prod.ext hverdict rfl⟩
  · unfold Session.check
    rw [h.table]
  · have hrecorded := (h.record_inner
      (e := .checked state depth value (s.check rel state depth value).1) rfl).events
    refine hrecorded.trans ?_
    rw [← hverdict]
    rfl

end Akin

/-! ### Completing a layer -/

/-- Audits that judge alike, up to a fault that only the left one looks for. -/
def Audits (w : Views σ V) (audit audit' : Audit σ κ V) : Prop :=
  ∀ s t, w.Akin s t → ∀ m parts, w.Excuses (audit s m parts).2 ∨
    ∃ session, w.Akin (audit s m parts).1 session ∧
      audit' t m parts = (session, (audit s m parts).2)

/-- Audits that find nothing judge alike. -/
theorem audits_lenient (w : Views σ V) :
    w.Audits (fun (session : Session σ κ V) _ _ => (session, none)) fun session _ _ =>
      (session, none) :=
  fun _ t h _ _ => .inr ⟨t, h, rfl⟩

section Settle

variable [BEq σ] [BEq κ] [Value V] {s t : Session σ κ V} {audit audit' : Audit σ κ V}

theorem sift (h : w.Akin s t) (rel : Option (Dominance σ κ)) (cs : List (Candidate σ V))
    (layer : Layer σ V) : ∃ session, w.Akin (DiagramSearch.sift rel cs layer s).session session ∧
      DiagramSearch.sift rel cs layer t =
        { DiagramSearch.sift rel cs layer s with session } := by
  induction cs generalizing layer s t with
  | nil => exact ⟨t, h, rfl⟩
  | cons c cs ih =>
    unfold DiagramSearch.sift
    -- A candidate that is kept stands before those that are kept after it.
    have hkeep : ∀ {s t : Session σ κ V}, w.Akin s t → ∃ session,
        w.Akin (DiagramSearch.sift rel cs layer s).session session ∧
        { DiagramSearch.sift rel cs layer t with
          kept := c :: (DiagramSearch.sift rel cs layer t).kept } =
        { DiagramSearch.sift rel cs layer s with
          session, kept := c :: (DiagramSearch.sift rel cs layer s).kept } := by
      intro s t h
      obtain ⟨session, hsession, heq⟩ := ih h layer
      exact ⟨session, hsession, by rw [heq]⟩
    cases layer[c.position]? with
    | none => exact ih h layer
    | some n =>
      dsimp only
      split
      · obtain ⟨after', hafter, heq⟩ := h.check rel n.state n.depth n.longest
        rw [heq]
        generalize s.check rel n.state n.depth n.longest = checked at hafter
        obtain ⟨verdict, after⟩ := checked
        cases verdict with
        | none => exact hkeep hafter
        | some threshold => exact ih hafter _
      · exact hkeep h

theorem select (h : w.Akin s t) (r : Request σ κ V) (isRoot : Bool) (pending : Layer σ V) :
    ∃ session, w.Akin (DiagramSearch.select r s isRoot pending).session session ∧
      DiagramSearch.select r t isRoot pending =
        { DiagramSearch.select r s isRoot pending with session } := by
  unfold DiagramSearch.select
  rw [← h.cache]
  exact sift h _ _ _

omit [BEq κ] in
theorem mergeExcess (haudit : w.Audits audit audit') (r : Request σ κ V) (path : Path)
    (above : List (Layer σ V)) (width : Nat) (layer : Layer σ V) (kept : List (Candidate σ V))
    (h : w.Akin s t) :
    w.Excuses (DiagramSearch.mergeExcess audit r path above width ⟨s, layer, kept⟩).fault ∨
      ∃ session,
        w.Akin (DiagramSearch.mergeExcess audit r path above width ⟨s, layer, kept⟩).session
          session ∧
        DiagramSearch.mergeExcess audit' r path above width ⟨t, layer, kept⟩ =
          { DiagramSearch.mergeExcess audit r path above width ⟨s, layer, kept⟩ with session } := by
  have hreported : ∀ keep sorted count,
      w.Akin ((s.record (.sorted r.kind keep sorted)).note (.merged count))
        ((t.record (.sorted r.kind keep sorted)).note (.merged count)) :=
    fun keep sorted count =>
      (h.record_inner (e := .sorted r.kind keep sorted) rfl).record_inner rfl
  unfold DiagramSearch.mergeExcess
  dsimp only
  split
  · rename_i m _
    rcases haudit _ _ (hreported _ _ _) m _ with hexcuse | ⟨session, hsession, heq⟩
    · exact .inl hexcuse
    · rw [heq]
      exact .inr ⟨session, hsession, rfl⟩
  · exact .inr ⟨_, hreported _ _ _, rfl⟩

omit [BEq κ] in
theorem fit (haudit : w.Audits audit audit') (r : Request σ κ V) (path : Path)
    (above : List (Layer σ V)) (layer : Layer σ V) (kept : List (Candidate σ V))
    (h : w.Akin s t) :
    w.Excuses (DiagramSearch.fit audit r path above ⟨s, layer, kept⟩).fault ∨
      ∃ session, w.Akin (DiagramSearch.fit audit r path above ⟨s, layer, kept⟩).session session ∧
        DiagramSearch.fit audit' r path above ⟨t, layer, kept⟩ =
          { DiagramSearch.fit audit r path above ⟨s, layer, kept⟩ with session } := by
  unfold DiagramSearch.fit
  dsimp only
  split
  · exact .inr ⟨t, h, rfl⟩
  · split
    · exact .inr ⟨t, h, rfl⟩
    · unfold dropExcess
      exact .inr ⟨_, (h.record_inner (e := .sorted _ _ _) rfl).record_inner rfl, rfl⟩
    · split
      · exact mergeExcess haudit r path above _ layer kept h
      · exact .inr ⟨t, h, rfl⟩

theorem settleLayer (haudit : w.Audits audit audit') (r : Request σ κ V) (d : Diagram σ V)
    (h : w.Akin s t) :
    w.Excuses (DiagramSearch.settleLayer audit r s d).fault ∨
      ∃ session, w.Akin (DiagramSearch.settleLayer audit r s d).session session ∧
        DiagramSearch.settleLayer audit' r t d =
          { DiagramSearch.settleLayer audit r s d with session } := by
  obtain ⟨session, hsession, heq⟩ := select h r d.layers.isEmpty d.pending
  unfold DiagramSearch.settleLayer
  dsimp only
  rw [heq]
  exact fit haudit r d.path d.layers _ _ hsession

end Settle

/-! ### Expanding a layer -/

/-- Two expansions that differ in their sessions only, unless the left one met a fault. -/
def Expansions (w : Views σ V) (x y : Expansion σ κ V) : Prop :=
  w.Excuses x.fault ∨ ∃ session, w.Akin x.session session ∧ y = { x with session }

section Expand

variable [BEq σ] [Hashable σ] [BEq κ] [Value V] {checks checks' : Checks}
  {x y : Expansion σ κ V} {r : Request σ κ V}

omit [BEq κ] in
/-- Applied once or twice, a transition leads to the same state. -/
theorem branch (hwatch : w.Watches checks checks') {problem : Problem σ V}
    (hbears : w.Bears problem) (source : Nat) (parent : Node σ V) (h : w.Expansions x y)
    (d : Decision) :
    w.Expansions (Expansion.branch problem checks source parent x d)
      (Expansion.branch problem checks' source parent y d) := by
  rcases h with ⟨hcloser, hfault⟩ | ⟨session, hsession, rfl⟩
  · refine .inl ⟨hcloser, ?_⟩
    unfold Expansion.branch
    rw [if_pos (Option.isSome_iff_ne_none.2 hfault)]
    exact hfault
  · have hfirst := hsession.transition hbears parent.state d
    have hsecond := hsession.applied.transition hbears parent.state d
    unfold Expansion.branch
    dsimp only
    rw [← hfirst, ← hsecond]
    split
    · exact .inr ⟨session, hsession, rfl⟩
    · rcases hwatch with rfl | ⟨hcloser, rfl⟩
      · split
        · split
          · exact .inr ⟨_, hsession.applied.applied, rfl⟩
          · exact .inr ⟨_, hsession.applied.applied, rfl⟩
        · exact .inr ⟨_, hsession.applied, rfl⟩
      · split
        · split
          · exact .inr ⟨_, hsession.applied.applied_left hcloser, rfl⟩
          · exact .inl ⟨hcloser, Option.some_ne_none _⟩
        · exact .inr ⟨_, hsession.applied, rfl⟩

omit [BEq κ] in
theorem expand (hwatch : w.Watches r.checks checks') (hbears : w.Bears r.model.problem)
    (free : Variables) (var : Nat) (h : w.Expansions x y) (position : Nat) :
    w.Expansions (Expansion.expand r free var x position)
      (Expansion.expand { r with checks := checks' } free var y position) := by
  rcases h with ⟨hcloser, hfault⟩ | ⟨session, hsession, rfl⟩
  · refine .inl ⟨hcloser, ?_⟩
    obtain ⟨fault, hsome⟩ := Option.ne_none_iff_exists'.1 hfault
    unfold Expansion.expand
    rw [hsome]
    exact hfault
  · unfold Expansion.expand
    dsimp only
    split
    · split
      · exact .inr ⟨session, hsession, rfl⟩
      · exact List.foldl_rel (.inr ⟨session, hsession, rfl⟩)
          fun d _ _ _ h => branch hwatch hbears position _ h d
    · exact .inr ⟨session, hsession, rfl⟩

omit [BEq κ] in
theorem expansion (hwatch : w.Watches r.checks checks') (hbears : w.Bears r.model.problem)
    (f : Fitted σ κ V) {session : Session σ κ V} (h : w.Akin f.session session)
    (free : Variables) (index var : Nat) :
    w.Expansions (f.expansion r free index var)
      (({ f with session } : Fitted σ κ V).expansion { r with checks := checks' } free index var) :=
  List.foldl_rel (.inr ⟨_, h.record_inner (e := .notice (.layerDone index f.kept.length)) rfl, rfl⟩)
    fun j _ _ _ h => expand hwatch hbears free var h j

end Expand

/-! ### Unrolling -/

/-- Two unrollings that differ in their sessions only, unless the left one met a fault. -/
def Unrollings (w : Views σ V) (u u' : Unrolled σ κ V) : Prop :=
  w.Excuses u.fault ∨ ∃ session, w.Akin u.session session ∧ u' = { u with session }

section Unroll

variable [BEq σ] [Hashable σ] [BEq κ] [Value V] {checks' : Checks} {r : Request σ κ V}
  {audit audit' : Audit σ κ V} {s t : Session σ κ V}

theorem unrollRound (hwatch : w.Watches r.checks checks') (haudit : w.Audits audit audit')
    (hbears : w.Bears r.model.problem) (free : Variables) (d : Diagram σ V) (h : w.Akin s t)
    {after after' : Variables → Session σ κ V → Diagram σ V → Unrolled σ κ V}
    (hafter : ∀ v, r.branching free (d.pending.toList.map (·.state)) = some v → ∀ s t, w.Akin s t →
      ∀ d, w.Unrollings (after (free.erase v) s d) (after' (free.erase v) t d)) :
    w.Unrollings (DiagramSearch.unrollRound audit r free s d after)
      (DiagramSearch.unrollRound audit' { r with checks := checks' } free t d after') := by
  have hsettle : DiagramSearch.settleLayer audit' { r with checks := checks' } t d =
      DiagramSearch.settleLayer audit' r t d := rfl
  unfold DiagramSearch.unrollRound
  rw [hsettle]
  rcases settleLayer haudit r d h with ⟨hcloser, hfault⟩ | ⟨session, hsession, heq⟩
  · refine .inl ⟨hcloser, ?_⟩
    obtain ⟨fault, hsome⟩ := Option.ne_none_iff_exists'.1 hfault
    simp only [hsome]
    exact Option.some_ne_none fault
  · rw [heq]
    generalize DiagramSearch.settleLayer audit r s d = f at hsession
    have hexpand := expansion hwatch hbears f hsession free d.layers.length
    have hreported := hsession.record_inner
      (e := .notice (.layerDone d.layers.length f.kept.length)) rfl
    obtain ⟨settled, layer, kept, reduced, fault⟩ := f
    dsimp only
    cases fault with
    | some fault => exact .inr ⟨session, hsession, rfl⟩
    | none =>
      cases hv : r.branching free (d.pending.toList.map (·.state)) with
      | none => cases kept <;> exact .inr ⟨_, hreported, rfl⟩
      | some v =>
        cases kept with
        | nil => exact .inr ⟨_, hreported, rfl⟩
        | cons first rest =>
          dsimp only
          rcases hexpand v with ⟨hcloser, hfault⟩ | ⟨expanded, hexpanded, heq'⟩
          · refine .inl ⟨hcloser, ?_⟩
            obtain ⟨fault, hsome⟩ := Option.ne_none_iff_exists'.1 hfault
            rw [hsome]
            exact Option.some_ne_none fault
          · rw [heq']
            generalize Fitted.expansion _ r free d.layers.length v = x at hexpanded
            obtain ⟨session', layer', pending, fault'⟩ := x
            cases fault' with
            | some fault => exact .inr ⟨expanded, hexpanded, rfl⟩
            | none => exact hafter v hv _ _ hexpanded _

/-- **Unrolling goes the same way on both sides.** -/
theorem unroll (hwatch : w.Watches r.checks checks') (haudit : w.Audits audit audit')
    (hbears : w.Bears r.model.problem) {rounds : Nat} {free : Variables}
    (hrounds : free.size ≤ rounds)
    (d : Diagram σ V) (h : w.Akin s t) :
    w.Unrollings (DiagramSearch.unroll audit r rounds free s d)
      (DiagramSearch.unroll audit' { r with checks := checks' } rounds free t d) := by
  induction rounds generalizing free s t d with
  | zero =>
    rw [unroll_eq_round _ _ _ _ hrounds, unroll_eq_round _ _ _ _ hrounds]
    refine unrollRound hwatch haudit hbears free d h fun v hv => ?_
    exact absurd (Branching.size_pos_of_some hv) (Nat.not_lt.2 hrounds)
  | succ rounds ih =>
    rw [unroll_eq_round _ _ _ _ hrounds, unroll_eq_round _ _ _ _ hrounds]
    refine unrollRound hwatch haudit hbears free d h fun v _ s t hst d => ?_
    have hsize := Variables.size_erase_add_one v.2
    exact ih (by omega) d hst

end Unroll

/-! ### Evaluating -/

/-- Two compilations of a request, of which one is watched as `checks` says: they tell the
same.  If the left one alone was watched, tails may be known of its diagram only. -/
structure Tallies (w : Views σ V) (r : Request σ κ V) (checks' : Checks) [Value V]
    (c c' : Compiled σ κ V) : Prop where
  session : w.Akin c.session c'.session
  outcome : c.outcome = c'.outcome
  bestValue : c.diagram.bestValue = c'.diagram.bestValue
  bestSolution : c.diagram.bestSolution = c'.diagram.bestSolution
  diagram : r.kind = .relaxed ∨ checks' = r.checks → c.diagram = c'.diagram

/-- Two compilations that tell the same, unless the left one met a fault. -/
def Compilations (w : Views σ V) (r : Request σ κ V) (checks' : Checks) [Value V]
    (c c' : Compiled σ κ V) : Prop :=
  (w.closer = true ∧ ∃ fault, c.outcome = .error fault) ∨ w.Tallies r checks' c c'

section Evaluate

variable [BEq σ] [BEq κ] [Value V] {checks' : Checks} {r : Request σ κ V}
  {s t : Session σ κ V}

omit [BEq κ] in
theorem teach (h : w.Akin s t) (layer : Layer σ V) (lasting : Node σ V → Bool) :
    w.Akin (layer.teach lasting s) (layer.teach lasting t) := by
  unfold Layer.teach
  rw [← Array.foldl_toList, ← Array.foldl_toList]
  generalize layer.toList = nodes
  induction nodes generalizing s t with
  | nil => exact h
  | cons n nodes ih =>
    rw [List.foldl_cons, List.foldl_cons]
    refine ih ?_
    split
    · split
      · exact h.remember _ _ _
      · exact h
    · exact h

omit [BEq κ] in
theorem sweepLayers (h : w.Akin s t) (best : V) (lasting : Nat → Node σ V → Bool)
    (layer : Layer σ V) (above : List (Layer σ V)) :
    w.Akin (DiagramSearch.sweepLayers best lasting s layer above).1
      (DiagramSearch.sweepLayers best lasting t layer above).1 := by
  induction above generalizing s t layer with
  | nil => exact teach h _ _
  | cons parents above ih =>
    exact ih (teach h (layer.map (Node.settle best)) (lasting (above.length + 1)))
      ((layer.map (Node.settle best)).foldl Node.inform parents)

omit [BEq κ] in
theorem sweep (h : w.Akin s t) (r : Request σ κ V) (d : Diagram σ V) :
    w.Akin (d.sweep r s).1 (d.sweep r t).1 := by
  unfold Diagram.sweep
  cases d.layers with
  | nil => exact h
  | cons last above =>
    cases d.bestExactValue with
    | none => exact sweepLayers h r.toBeat (d.lasting r.kind r.cutset) last above
    | some value =>
      exact sweepLayers h (max r.toBeat value) (d.lasting r.kind r.cutset)
        (last.map fun n => if n.isAlive && n.exact then
          { n with threshold := some (max r.toBeat value) } else n) above

omit [BEq κ] in
/-- Evaluated alike, a diagram tells the same from sessions that are akin. -/
theorem evaluate_same (h : w.Akin s t) (r : Request σ κ V) (d : Diagram σ V) :
    w.Akin (r.evaluate s d).session (r.evaluate t d).session ∧
      (r.evaluate s d).outcome = (r.evaluate t d).outcome ∧
      (r.evaluate s d).diagram = (r.evaluate t d).diagram := by
  obtain ⟨houtcome, hdiagram, _⟩ := r.evaluate_session s t d
  refine ⟨?_, houtcome.symm, hdiagram.symm⟩
  unfold Request.evaluate
  dsimp only
  generalize (if r.kind == .relaxed || r.checks.watches then
    ((d.markBest.markExact r.kind).markCutset r.kind r.cutset).markBounds
    else (d.markBest.markExact r.kind).markCutset r.kind r.cutset) = bounded
  split
  · exact h
  · split
    · exact sweep h r bounded
    · exact h

omit [BEq κ] in
/-- Bounds are checked of diagrams without merges, if the model is watched. -/
theorem evaluate_checks (h : r.kind = .relaxed ∨ checks'.watches = r.checks.watches)
    (session : Session σ κ V) (d : Diagram σ V) :
    ({ r with checks := checks' } : Request σ κ V).evaluate session d = r.evaluate session d := by
  have hsweep : ∀ d : Diagram σ V, d.sweep { r with checks := checks' } session =
      d.sweep r session := fun _ => rfl
  unfold Request.evaluate
  dsimp only
  rcases h with hkind | hwatches
  · have hrelaxed : (r.kind == .relaxed) = true := by simp [hkind]
    simp only [hsweep, bne, hrelaxed, Bool.true_or, Bool.not_true, Bool.and_false,
      Bool.false_eq_true, if_false, if_true]
  · rw [hwatches]
    rfl

omit [BEq κ] in
/-- **What a closer watch computes of a diagram is not seen in what it tells.** -/
theorem evaluate_watched (hcloser : w.closer = true) (hwatched : r.checks.watches = true)
    (hkind : r.kind ≠ .relaxed) {d : Diagram σ V} (huncut : Uncut d.layers) (h : w.Akin s t) :
    w.Compilations r .off (r.evaluate s d)
      (({ r with checks := .off } : Request σ κ V).evaluate t d) := by
  have hbeq : (r.kind == .relaxed) = false := by simpa using hkind
  have hcut : (d.markBest.markExact r.kind).markCutset r.kind r.cutset =
      d.markBest.markExact r.kind := by
    unfold Diagram.markCutset
    cases hk : r.kind <;> first | rfl | exact absurd hk hkind
  have hlayers : (d.markBest.markExact r.kind).layers = d.layers := by
    unfold Diagram.markExact Diagram.markBest
    split <;> rfl
  rw [← hlayers] at huncut
  unfold Request.evaluate
  dsimp only
  rw [hcut, hwatched, hbeq]
  generalize d.markBest.markExact r.kind = marked at huncut
  obtain ⟨layers, hmarked, hsame⟩ := marked.markBounds_untailed
  rw [hmarked]
  simp only [Checks.watches, bne, hbeq, Bool.or_false, Bool.not_false, Bool.and_true,
    Bool.false_eq_true, if_false, if_true, Bool.false_or, Bool.or_true]
  have hlineages : lineages layers = lineages marked.layers :=
    Diagram.map_map_eq (f := Node.untailed) Node.lineage (fun _ => rfl) hsame
  -- What is told depends on where the nodes come from.
  have htells : ∀ ls ls', lineages ls = lineages ls' → ∀ s t, w.Akin s t → w.Tallies r .off
      ⟨s, { marked with layers := ls },
        .ok ⟨marked.isExact, ({ marked with layers := ls } : Diagram σ V).bestValue⟩⟩
      ⟨t, { marked with layers := ls' },
        .ok ⟨marked.isExact, ({ marked with layers := ls' } : Diagram σ V).bestValue⟩⟩ := by
    intro ls ls' hls s t h
    have hvalue : ({ marked with layers := ls } : Diagram σ V).bestValue =
        ({ marked with layers := ls' } : Diagram σ V).bestValue := Diagram.bestValue_congr rfl hls
    refine ⟨h, by rw [hvalue], hvalue, Diagram.bestSolution_congr rfl rfl hls, fun hcase => ?_⟩
    rcases hcase with hrelaxed | hoff
    · exact absurd hrelaxed hkind
    · rw [← hoff] at hwatched
      cases hwatched
  cases Diagram.inadmissible? { marked with layers } with
  | some fault => exact .inl ⟨hcloser, fault, rfl⟩
  | none =>
    refine .inr ?_
    dsimp only
    split
    · have hswept := sweep h r marked
      rw [← Diagram.sweep_untailed hsame huncut] at hswept
      obtain ⟨ls, hleft, hls⟩ := lineage_outlasts.sweep { marked with layers } r s
      obtain ⟨ls', hright, hls'⟩ := lineage_outlasts.sweep marked { r with checks := .off } t
      rw [hleft, hright]
      exact htells ls ls' (hls.trans (hlineages.trans hls'.symm)) _ _ hswept
    · exact htells layers marked.layers hlineages s t h

end Evaluate

/-! ### Compiling -/

section Compile

variable [BEq σ] [Hashable σ] [BEq κ] [Value V] {checks' : Checks} {r : Request σ κ V}
  {audit audit' : Audit σ κ V} {s t : Session σ κ V}

theorem compileWith (hwatch : w.Watches r.checks checks') (haudit : w.Audits audit audit')
    (hbears : w.Bears r.model.problem) (h : w.Akin s t) :
    w.Compilations r checks' (r.compileWith audit s)
      (({ r with checks := checks' } : Request σ κ V).compileWith audit' t) := by
  have huncut : (r.unroll audit s).fault = none → Uncut (r.unroll audit s).diagram.layers :=
    r.unroll_uncut
  have hunroll : w.Unrollings (r.unroll audit s)
      (({ r with checks := checks' } : Request σ κ V).unroll audit' t) :=
    unroll hwatch haudit hbears (Nat.le_refl _) _ h
  unfold Request.compileWith
  rcases hunroll with ⟨hcloser, hfault⟩ | ⟨session, hsession, heq⟩
  · obtain ⟨fault, hsome⟩ := Option.ne_none_iff_exists'.1 hfault
    dsimp only
    rw [hsome]
    exact .inl ⟨hcloser, fault, rfl⟩
  · rw [heq]
    generalize r.unroll audit s = u at huncut hsession
    obtain ⟨session', d, fault⟩ := u
    dsimp only
    cases fault with
    | some fault => exact .inr ⟨hsession, rfl, rfl, rfl, fun _ => rfl⟩
    | none =>
      have hsame : r.kind = .relaxed ∨ checks'.watches = r.checks.watches →
          w.Tallies r checks' (r.evaluate session' d)
            (({ r with checks := checks' } : Request σ κ V).evaluate session d) := by
        intro hcase
        rw [evaluate_checks hcase]
        obtain ⟨hsession, houtcome, hdiagram⟩ := evaluate_same hsession r d
        exact ⟨hsession, houtcome, by rw [hdiagram], by rw [hdiagram], fun _ => hdiagram⟩
      rcases hwatch with rfl | ⟨hcloser, rfl⟩
      · exact .inr (hsame (.inr rfl))
      · by_cases hkind : r.kind = .relaxed
        · exact .inr (hsame (.inl hkind))
        · cases hwatched : r.checks.watches with
          | false => exact .inr (hsame (.inr hwatched.symm))
          | true => exact evaluate_watched hcloser hwatched hkind (huncut rfl) hsession

/-- A compilation on the side starts with nothing, and is not watched. -/
theorem worth (hbears : w.Bears r.model.problem) (h : w.Akin s t) (m : Subproblem σ V) :
    w.Akin (r.worth s m).2 (r.worth t m).2 ∧ (r.worth s m).1 = (r.worth t m).1 := by
  have hwatch : w.notices.Watches (r.exactly m).checks .off := .inl rfl
  rcases compileWith hwatch w.notices.audits_lenient hbears h.aside with ⟨hcloser, _⟩ | htallies
  · cases hcloser
  · exact ⟨h.resume htallies.session, htallies.bestValue⟩

theorem findUnsound (hbears : w.Bears r.model.problem) (h : w.Akin s t) (m : Subproblem σ V)
    (relaxed : Option V) (parts : List (Subproblem σ V)) :
    w.Akin (r.findUnsound m relaxed s parts).1 (r.findUnsound m relaxed t parts).1 ∧
      (r.findUnsound m relaxed s parts).2 = (r.findUnsound m relaxed t parts).2 := by
  induction parts generalizing s t with
  | nil => exact ⟨h, rfl⟩
  | cons part rest ih =>
    obtain ⟨hafter, hworth⟩ := worth hbears h part
    unfold Request.findUnsound
    dsimp only
    rw [hworth]
    split
    · exact ih hafter
    · exact ⟨hafter, rfl⟩
    · split
      · exact ⟨hafter, rfl⟩
      · exact ih hafter

/-- Audited alone, a merge is found to be at fault or changes nothing that is looked at. -/
theorem findUnsound_left (hcloser : w.closer = true) (h : w.Akin s t) (m : Subproblem σ V)
    (relaxed : Option V) (parts : List (Subproblem σ V)) :
    w.Excuses (r.findUnsound m relaxed s parts).2 ∨
      w.Akin (r.findUnsound m relaxed s parts).1 t ∧
        (r.findUnsound m relaxed s parts).2 = none := by
  induction parts generalizing s with
  | nil => exact .inr ⟨h, rfl⟩
  | cons part rest ih =>
    have hafter : w.Akin (r.worth s part).2 t := h.resume_left hcloser
    unfold Request.findUnsound
    dsimp only
    split
    · exact ih hafter
    · exact .inl ⟨hcloser, Option.some_ne_none _⟩
    · split
      · exact .inl ⟨hcloser, Option.some_ne_none _⟩
      · exact ih hafter

/-- **Merges are judged alike.** -/
theorem audits_audit (hwatch : w.Watches r.checks checks') (hbears : w.Bears r.model.problem) :
    w.Audits r.audit ({ r with checks := checks' } : Request σ κ V).audit := by
  intro s t h m parts
  rcases hwatch with rfl | ⟨hcloser, rfl⟩
  · refine .inr ?_
    change ∃ session, w.Akin (r.audit s m parts).1 session ∧ r.audit t m parts =
      (session, (r.audit s m parts).2)
    unfold Request.audit
    split
    · obtain ⟨hafter, hworth⟩ := worth hbears h m
      obtain ⟨hfound, hfault⟩ := findUnsound hbears hafter m (r.worth s m).1 parts
      dsimp only
      rw [← hworth]
      exact ⟨_, hfound, Prod.ext rfl hfault.symm⟩
    · exact ⟨t, h, rfl⟩
  · have hoff : ({ r with checks := .off } : Request σ κ V).audit t m parts = (t, none) := rfl
    rw [hoff]
    unfold Request.audit
    split
    · have hafter : w.Akin (r.worth s m).2 t := h.resume_left hcloser
      rcases findUnsound_left (r := r) hcloser hafter m (r.worth s m).1 parts with
        hexcuse | ⟨hfound, hnone⟩
      · exact .inl hexcuse
      · exact .inr ⟨t, hfound, Prod.ext rfl hnone.symm⟩
    · exact .inr ⟨t, h, rfl⟩

/-- **Two compilations of a request tell the same**, unless one of them was watched more
closely and met a fault. -/
theorem compile (hwatch : w.Watches r.checks checks') (hbears : w.Bears r.model.problem)
    (h : w.Akin s t) : w.Compilations r checks' (r.compile s)
      (({ r with checks := checks' } : Request σ κ V).compile t) :=
  compileWith hwatch (audits_audit hwatch hbears) hbears h

end Compile

end Views
end DiagramSearch

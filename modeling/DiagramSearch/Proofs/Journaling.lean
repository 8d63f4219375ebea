/-
# What a compilation does to a session

A compilation works on the session it is given by few means: it counts transitions,
writes to the journal, asks the dominance table and tells the cache thresholds.  It
strikes nothing from the journal, takes nothing from the queue and hands out no
solution: that is left to the search.  All of this is said of every function that is
given a session, whatever the model, whether or not a fault is found, and also of the
compilations on the side by which merges are audited, of which only the notices are
kept.

* `Session.Works`: one step after the other, so that what every step keeps is kept by
  induction;
* `Request.compile_works`: **compiling takes such steps only**;
* `Session.Silent`: the journal has grown, and not by a solution.  Such steps are
  silent (`Session.Works.silent`), and so is compiling (`Request.compile_silent`).
-/

import DiagramSearch.Proofs.Telling

namespace DiagramSearch

variable {σ κ V : Type}

namespace Session

/-- The journal has grown, and no solution was handed out. -/
def Silent (s s' : Session σ κ V) : Prop :=
  ∃ new, s'.events = new ++ s.events ∧ ∀ path stats, .incumbent path stats ∉ new

variable {s s' s'' : Session σ κ V}

theorem Silent.refl (s : Session σ κ V) : s.Silent s :=
  ⟨[], rfl, fun _ _ => List.not_mem_nil⟩

theorem Silent.of_events_eq (h : s'.events = s.events) : s.Silent s' :=
  ⟨[], h, fun _ _ => List.not_mem_nil⟩

theorem Silent.trans (h : s.Silent s') (h' : s'.Silent s'') : s.Silent s'' := by
  obtain ⟨new, heq, hnew⟩ := h
  obtain ⟨new', heq', hnew'⟩ := h'
  refine ⟨new' ++ new, by rw [heq', heq, List.append_assoc], fun path stats hmem => ?_⟩
  rcases List.mem_append.1 hmem with hmem | hmem
  · exact hnew' path stats hmem
  · exact hnew path stats hmem

theorem Silent.mem_events (h : s.Silent s') {e : Event σ V} (he : e ∈ s.events) :
    e ∈ s'.events := by
  obtain ⟨new, heq, _⟩ := h
  rw [heq]
  exact List.mem_append_right new he

theorem silent_record {e : Event σ V} (he : ∀ path stats, e ≠ .incumbent path stats) :
    s.Silent (s.record e) :=
  ⟨[e], rfl, fun path stats hmem => he path stats (List.mem_singleton.1 hmem).symm⟩

theorem silent_note (n : Notice σ V) : s.Silent (s.note n) :=
  silent_record fun _ _ h => by cases h

/-- Of a compilation on the side only the notices are taken over. -/
theorem silent_resume (after : Session σ κ V) : s.Silent (s.resume after) := by
  refine ⟨_, rfl, fun path stats hmem => ?_⟩
  exact absurd (List.mem_filter.1 hmem).2 Bool.false_ne_true

variable [BEq σ] [Value V]

theorem silent_remember (state : σ) (depth : Nat) (t : Threshold V) :
    s.Silent (s.remember state depth t) :=
  ⟨[_], rfl, fun _ _ hmem => by cases List.mem_singleton.1 hmem⟩

theorem silent_check [BEq κ] (rel : Option (Dominance σ κ)) (state : σ) (depth : Nat) (value : V) :
    s.Silent (s.check rel state depth value).2 :=
  ⟨[_], rfl, fun _ _ hmem => by cases List.mem_singleton.1 hmem⟩

/-- What a compilation may do to a session, one step after the other. -/
inductive Works [BEq κ] (s : Session σ κ V) : Session σ κ V → Prop where
  | refl : Works s s
  | applied {s' : Session σ κ V} (h : Works s s') : Works s s'.applied
  | noted {s' : Session σ κ V} (h : Works s s') (n : Notice σ V) : Works s (s'.note n)
  | sorted {s' : Session σ κ V} (h : Works s s') (kind : Kind) (keep : Nat)
      (layer : List (Candidate σ V)) : Works s (s'.record (.sorted kind keep layer))
  | checked {s' : Session σ κ V} (h : Works s s') (rel : Option (Dominance σ κ)) (state : σ)
      (depth : Nat) (value : V) : Works s (s'.check rel state depth value).2
  | remembered {s' : Session σ κ V} (h : Works s s') (state : σ) (depth : Nat)
      (t : Threshold V) : Works s (s'.remember state depth t)
  | resumed {s' : Session σ κ V} (h : Works s s') (after : Session σ κ V) :
      Works s (s'.resume after)

variable [BEq κ]

theorem Works.trans (h : s.Works s') (h' : s'.Works s'') : s.Works s'' := by
  induction h' with
  | refl => exact h
  | applied _ ih => exact ih.applied
  | noted _ n ih => exact ih.noted n
  | sorted _ kind keep layer ih => exact ih.sorted kind keep layer
  | checked _ rel state depth value ih => exact ih.checked rel state depth value
  | remembered _ state depth t ih => exact ih.remembered state depth t
  | resumed _ after ih => exact ih.resumed after

/-- **Such steps hand out no solution.** -/
theorem Works.silent (h : s.Works s') : s.Silent s' := by
  induction h with
  | refl => exact .refl _
  | applied _ ih => exact ih.trans (.of_events_eq rfl)
  | noted _ n ih => exact ih.trans (silent_note n)
  | sorted _ _ _ _ ih => exact ih.trans (silent_record nofun)
  | checked _ rel state depth value ih => exact ih.trans (silent_check rel state depth value)
  | remembered _ state depth t ih => exact ih.trans (silent_remember state depth t)
  | resumed _ after ih => exact ih.trans (silent_resume after)

/-- Such steps leave the cache with as many layers as it has. -/
theorem Works.size_cache (h : s.Works s') : s'.cache.layers.size = s.cache.layers.size := by
  induction h with
  | refl => rfl
  | applied _ ih => exact ih
  | noted _ _ ih => exact ih
  | sorted _ _ _ _ ih => exact ih
  | checked _ _ _ _ _ ih => exact ih
  | remembered _ _ _ _ ih => exact Cache.size_layers_update.trans ih
  | resumed _ _ ih => exact ih

end Session

/-- An audit that only works on the session. -/
def Audit.Works [BEq σ] [BEq κ] [Value V] (audit : Audit σ κ V) : Prop :=
  ∀ (session : Session σ κ V) m parts, session.Works (audit session m parts).1

section Unrolling

variable [BEq σ] [BEq κ] [Value V]

theorem sift_works (rel : Option (Dominance σ κ)) (cs : List (Candidate σ V))
    (layer : Layer σ V) (session : Session σ κ V) :
    session.Works (sift rel cs layer session).session := by
  induction cs generalizing layer session with
  | nil => exact .refl
  | cons c cs ih =>
    unfold sift
    split
    · rename_i n _
      split
      · have hcheck := (Session.Works.refl (s := session)).checked rel n.state n.depth n.longest
        split
        · rename_i heq
          rw [heq] at hcheck
          exact hcheck.trans (ih _ _)
        · rename_i heq
          rw [heq] at hcheck
          exact hcheck.trans (ih _ _)
      · exact ih _ _
    · exact ih _ _

variable {audit : Audit σ κ V}

theorem mergeExcess_works (haudit : audit.Works) (r : Request σ κ V) (path : Path)
    (above : List (Layer σ V)) (width : Nat) (s : Selection σ κ V) :
    s.session.Works (mergeExcess audit r path above width s).session := by
  unfold mergeExcess
  extract_lets sorted kept absorbed merged depth recycled target start marked now session
    positions parts verdict
  have hsession : s.session.Works session :=
    (Session.Works.refl.sorted _ _ _).noted _
  dsimp only [verdict]
  split
  · exact hsession.trans (haudit _ _ _)
  · exact hsession

theorem fit_works (haudit : audit.Works) (r : Request σ κ V) (path : Path)
    (above : List (Layer σ V)) (s : Selection σ κ V) :
    s.session.Works (fit audit r path above s).session := by
  unfold fit
  extract_lets width whole
  split
  · exact .refl
  · split
    · exact .refl
    · exact (Session.Works.refl.sorted _ _ _).noted _
    · split
      · exact mergeExcess_works haudit r path above width s
      · exact .refl

theorem settleLayer_works (haudit : audit.Works) (r : Request σ κ V) (session : Session σ κ V)
    (d : Diagram σ V) : session.Works (settleLayer audit r session d).session :=
  (sift_works _ _ _ _).trans (fit_works haudit r d.path d.layers _)

variable [Hashable σ]

theorem Expansion.branch_works (problem : Problem σ V) (checks : Checks) (source : Nat)
    (parent : Node σ V) (x : Expansion σ κ V) (d : Decision) :
    x.session.Works (branch problem checks source parent x d).session := by
  unfold branch
  dsimp only
  split
  · exact .refl
  · split
    · split
      · exact Session.Works.refl.applied.applied
      · exact Session.Works.refl.applied.applied
    · exact Session.Works.refl.applied

theorem Expansion.expand_works (r : Request σ κ V) (free : Variables) (var : Nat)
    (x : Expansion σ κ V) (position : Nat) :
    x.session.Works (expand r free var x position).session := by
  unfold expand
  split
  · dsimp only
    split
    · exact .refl
    · refine List.foldlRecOn _ _ (motive := fun y : Expansion σ κ V =>
        x.session.Works y.session) .refl ?_
      exact fun y hy d _ => hy.trans (branch_works _ _ _ _ y d)
  · exact .refl

theorem Fitted.expansion_works (f : Fitted σ κ V) (r : Request σ κ V) (free : Variables)
    (index var : Nat) : f.session.Works (f.expansion r free index var).session := by
  refine List.foldlRecOn f.kept _ (motive := fun y : Expansion σ κ V => f.session.Works y.session)
    (Session.Works.refl.noted _) ?_
  exact fun y hy j _ => hy.trans (Expansion.expand_works r free var y j)

/-- **Unrolling takes such steps only**, faults or not. -/
theorem unroll_works (haudit : audit.Works) (r : Request σ κ V) (rounds : Nat)
    (free : Variables) (session : Session σ κ V) (d : Diagram σ V) :
    session.Works (unroll audit r rounds free session d).session := by
  induction rounds generalizing free session d with
  | zero =>
    unfold unroll
    dsimp only
    have hsettled := settleLayer_works haudit r session d
    split
    · exact hsettled
    · split
      · rename_i hrounds _
        cases hrounds
      · exact hsettled.noted _
  | succ rounds ih =>
    unfold unroll
    dsimp only
    have hsettled := settleLayer_works haudit r session d
    split
    · exact hsettled
    · split
      · rename_i first rest n v hkept hrounds _
        obtain rfl : rounds = n := Nat.succ.inj hrounds
        have hexpanded := (settleLayer audit r session d).expansion_works r free d.layers.length v
        unfold Fitted.expansion at hexpanded
        rw [hkept] at hexpanded
        split
        · exact hsettled.trans hexpanded
        · exact (hsettled.trans hexpanded).trans (ih _ _ _)
      · exact hsettled.noted _

end Unrolling

section Sweeping

variable [BEq σ] [BEq κ] [Value V]

theorem Layer.teach_works (layer : Layer σ V) (lasting : Node σ V → Bool)
    (session : Session σ κ V) : session.Works (layer.teach lasting session) := by
  unfold Layer.teach
  rw [← Array.foldl_toList]
  refine List.foldlRecOn layer.toList _ (motive := fun s => session.Works s) .refl ?_
  intro s hs n _
  split
  · split
    · exact hs.remembered _ _ _
    · exact hs
  · exact hs

theorem sweepLayers_works (best : V) (lasting : Nat → Node σ V → Bool) (session : Session σ κ V)
    (layer : Layer σ V) (above : List (Layer σ V)) :
    session.Works (sweepLayers best lasting session layer above).1 := by
  induction above generalizing session layer with
  | nil => exact Layer.teach_works _ _ _
  | cons parents above ih => exact (Layer.teach_works _ _ _).trans (ih _ _)

theorem Diagram.sweep_works (d : Diagram σ V) (r : Request σ κ V) (session : Session σ κ V) :
    session.Works (d.sweep r session).1 := by
  unfold sweep
  split
  · exact .refl
  · exact sweepLayers_works _ _ _ _ _

end Sweeping

namespace Request

variable [BEq σ] [Hashable σ] [BEq κ] [Value V]

omit [Hashable σ] in
theorem evaluate_works (r : Request σ κ V) (session : Session σ κ V) (d : Diagram σ V) :
    session.Works (r.evaluate session d).session := by
  obtain ⟨_, bounded, _, _, ⟨fault, heq⟩ | ⟨out, hout, heq⟩⟩ := r.evaluate_cases session d
  · rw [heq]
    exact .refl
  · rw [heq]
    rcases hout with rfl | rfl
    · exact .refl
    · exact bounded.sweep_works r session

theorem compileWith_works (r : Request σ κ V) {audit : Audit σ κ V} (haudit : audit.Works)
    (session : Session σ κ V) : session.Works (r.compileWith audit session).session := by
  have hunroll : session.Works (r.unroll audit session).session :=
    unroll_works haudit r _ _ session _
  unfold compileWith
  dsimp only
  split
  · exact hunroll
  · exact hunroll.trans (r.evaluate_works _ _)

theorem findUnsound_works (r : Request σ κ V) (merged : Subproblem σ V) (relaxed : Option V)
    (session : Session σ κ V) (parts : List (Subproblem σ V)) :
    session.Works (r.findUnsound merged relaxed session parts).1 := by
  induction parts generalizing session with
  | nil => exact .refl
  | cons s rest ih =>
    have hworth : session.Works (r.worth session s).2 := Session.Works.refl.resumed _
    unfold findUnsound
    dsimp only
    split
    · exact hworth.trans (ih _)
    · exact hworth
    · split
      · exact hworth
      · exact hworth.trans (ih _)

theorem audit_works (r : Request σ κ V) : r.audit.Works := by
  intro session m parts
  unfold audit
  split
  · exact (Session.Works.refl.resumed _).trans (r.findUnsound_works m _ _ parts)
  · exact .refl

/-- **Compiling takes such steps only.** -/
theorem compile_works (r : Request σ κ V) (session : Session σ κ V) :
    session.Works (r.compile session).session :=
  r.compileWith_works r.audit_works session

/-- Compiling hands out no solution. -/
theorem compile_silent (r : Request σ κ V) (session : Session σ κ V) :
    session.Silent (r.compile session).session :=
  (r.compile_works session).silent

end Request
end DiagramSearch

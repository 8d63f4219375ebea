/-
# How a session changes

Between two moments of a search three things may happen to a session: the
dominance table is asked about a pair, the cache is told a threshold, or
something is written to the journal.

* `Cache.get?_update`, `Cache.get?_forget`: a cache never holds a threshold that
  it was not told;
* `Session.Calm`: no question was put to the dominance table;
* `Session.Taught`: nor does the cache hold anything but what it held before and
  lessons of a given kind;
* `Session.Evolves`: the table was only asked about pairs of a given kind, and
  the journal says so.
-/

import DiagramSearch.Proofs.ExactValues
import DiagramSearch.Journal

namespace DiagramSearch

variable {σ κ V : Type} [BEq σ]

/-! ### The cache -/

theorem Threshold.tighter_eq_or [Value V] (a b : Threshold V) :
    a.tighter b = a ∨ a.tighter b = b := by
  unfold Threshold.tighter
  split
  · exact .inl rfl
  · exact .inr rfl

namespace Cache

variable {c : Cache σ V} {state other : σ} {depth k : Nat} {t u : Threshold V}

/-- Another depth keeps its thresholds. -/
theorem get?_update_of_ne [Value V] (h : k ≠ depth) :
    (c.update state depth t).get? other k = c.get? other k := by
  simp only [update, get?, Array.getElem?_modify, if_neg (Ne.symm h)]

/-- **A cache holds what it held before or what it was told last.** -/
theorem get?_update [Value V] [LawfulBEq σ] (h : (c.update state depth t).get? other k = some u) :
    c.get? other k = some u ∨ (other = state ∧ k = depth ∧ u = t) := by
  by_cases hk : k = depth
  · subst hk
    simp only [update, get?, Array.getElem?_modify, if_true] at h
    obtain ⟨layer, hlayer, hget⟩ := Option.bind_eq_some_iff.1 h
    obtain ⟨old, hold, rfl⟩ := Option.map_eq_some_iff.1 hlayer
    rw [get?, hold, Option.bind_some]
    rw [Register.get?_put] at hget
    split at hget
    · rename_i hstate
      obtain rfl := eq_of_beq hstate
      have hu := Option.some.inj hget
      split at hu
      · rename_i known hknown
        rcases t.tighter_eq_or known with ht | ht
        · exact .inr ⟨rfl, rfl, by rw [← hu, ht]⟩
        · exact .inl (by rw [← hu, ht]; exact hknown)
      · exact .inr ⟨rfl, rfl, hu.symm⟩
    · exact .inl hget
  · rw [get?_update_of_ne hk] at h
    exact .inl h

/-- Forgetting adds nothing. -/
theorem get?_forget (h : (c.forget depth).get? other k = some u) : c.get? other k = some u := by
  simp only [forget, get?, Array.getElem?_modify] at h ⊢
  split at h
  · obtain ⟨layer, hlayer, hget⟩ := Option.bind_eq_some_iff.1 h
    obtain ⟨_, _, rfl⟩ := Option.map_eq_some_iff.1 hlayer
    simp at hget
  · exact h

omit [BEq σ] in
theorem size_layers_forget : (c.forget depth).layers.size = c.layers.size := Array.size_modify

theorem size_layers_update [Value V] : (c.update state depth t).layers.size = c.layers.size :=
  Array.size_modify

/-- A cache without layers remembers nothing. -/
theorem get?_of_size_eq_zero (h : c.layers.size = 0) : c.get? state depth = none := by
  simp [get?, Array.eq_empty_of_size_eq_zero h]

end Cache

/-! ### The dominance table and the journal -/

namespace Session

/-- A change without a question to the dominance table. -/
structure Calm (s s' : Session σ κ V) : Prop where
  table : s'.table = s.table
  journal : ∃ new, s'.events = new ++ s.events ∧
    ∀ state depth value verdict, .checked state depth value verdict ∉ new

/-- A change that leaves the cache alone too. -/
structure Quiet (s s' : Session σ κ V) : Prop extends s.Calm s' where
  cache : s'.cache = s.cache

variable {s s' s'' : Session σ κ V}

omit [BEq σ] in
theorem Calm.trans (h : s.Calm s') (h' : s'.Calm s'') : s.Calm s'' where
  table := h'.table.trans h.table
  journal := by
    obtain ⟨new, hnew, hcheck⟩ := h.journal
    obtain ⟨new', hnew', hcheck'⟩ := h'.journal
    refine ⟨new' ++ new, by rw [hnew', hnew, List.append_assoc], fun st d v w hmem => ?_⟩
    rcases List.mem_append.1 hmem with hmem | hmem
    · exact hcheck' st d v w hmem
    · exact hcheck st d v w hmem

omit [BEq σ] in
theorem Calm.refl (s : Session σ κ V) : s.Calm s :=
  ⟨rfl, [], rfl, fun _ _ _ _ => List.not_mem_nil⟩

omit [BEq σ] in
theorem Quiet.refl (s : Session σ κ V) : s.Quiet s := ⟨.refl s, rfl⟩

omit [BEq σ] in
theorem Quiet.trans (h : s.Quiet s') (h' : s'.Quiet s'') : s.Quiet s'' :=
  ⟨h.toCalm.trans h'.toCalm, h'.cache.trans h.cache⟩

omit [BEq σ] in
theorem quiet_applied (s : Session σ κ V) : s.Quiet s.applied :=
  ⟨⟨rfl, [], rfl, fun _ _ _ _ => List.not_mem_nil⟩, rfl⟩

omit [BEq σ] in
/-- Writing to the journal is quiet, unless what is written is a check. -/
theorem quiet_record {e : Event σ V}
    (he : ∀ state depth value verdict, e ≠ .checked state depth value verdict) :
    s.Quiet (s.record e) :=
  ⟨⟨rfl, [e], rfl, fun _ _ _ _ hmem => he _ _ _ _ (List.mem_singleton.1 hmem).symm⟩, rfl⟩

omit [BEq σ] in
theorem quiet_note (n : Notice σ V) : s.Quiet (s.note n) :=
  quiet_record fun _ _ _ _ h => by cases h

theorem calm_remember [Value V] (state : σ) (depth : Nat) (t : Threshold V) :
    s.Calm (s.remember state depth t) :=
  ⟨rfl, [_], rfl, fun _ _ _ _ hmem => by cases List.mem_singleton.1 hmem⟩

/-- A change by which the cache is only told lessons of a given kind. -/
structure Taught (lesson : σ → Nat → Threshold V → Prop) (s s' : Session σ κ V) :
    Prop extends s.Calm s' where
  size : s'.cache.layers.size = s.cache.layers.size
  entries : ∀ state depth t, s'.cache.get? state depth = some t →
    s.cache.get? state depth = some t ∨ lesson state depth t

theorem Taught.refl (lesson : σ → Nat → Threshold V → Prop) (s : Session σ κ V) :
    s.Taught lesson s :=
  ⟨.refl s, rfl, fun _ _ _ h => .inl h⟩

theorem Taught.trans {lesson : σ → Nat → Threshold V → Prop} (h : s.Taught lesson s')
    (h' : s'.Taught lesson s'') : s.Taught lesson s'' where
  toCalm := h.toCalm.trans h'.toCalm
  size := h'.size.trans h.size
  entries := by
    intro state depth t ht
    rcases h'.entries state depth t ht with ht | ht
    · exact h.entries state depth t ht
    · exact .inr ht

theorem Taught.mono {lesson lesson' : σ → Nat → Threshold V → Prop}
    (himp : ∀ state depth t, lesson state depth t → lesson' state depth t)
    (h : s.Taught lesson s') : s.Taught lesson' s' :=
  ⟨h.toCalm, h.size, fun state depth t ht => (h.entries state depth t ht).imp_right (himp _ _ _)⟩

/-- **Telling the cache a lesson teaches it nothing else.** -/
theorem taught_remember [Value V] [LawfulBEq σ] {lesson : σ → Nat → Threshold V → Prop} {state : σ}
    {depth : Nat} {t : Threshold V} (h : lesson state depth t) :
    s.Taught lesson (s.remember state depth t) where
  toCalm := calm_remember state depth t
  size := Cache.size_layers_update
  entries := by
    intro other k u hu
    rcases Cache.get?_update hu with hu | ⟨rfl, rfl, rfl⟩
    · exact .inl hu
    · exact .inr h

omit [BEq σ] in
/-- What a compilation on the side leaves behind is quiet. -/
theorem quiet_resume (after : Session σ κ V) : s.Quiet (s.resume after) :=
  ⟨⟨rfl, _, rfl, fun _ _ _ _ hmem => by simp at hmem⟩, rfl⟩

variable [BEq κ] [Value V]

/-- The table is only asked about pairs of a given kind; each question is
written to the journal with its answer. -/
inductive Evolves (rel : Option (Dominance σ κ)) (real : σ → Nat → V → Prop)
    (s : Session σ κ V) : Session σ κ V → Prop where
  | refl : Evolves rel real s s
  | check {s' : Session σ κ V} {state : σ} {depth : Nat} {value : V}
      (h : Evolves rel real s s') (hreal : real state depth value) :
      Evolves rel real s (s'.check rel state depth value).2
  | calm {s' s'' : Session σ κ V} (h : Evolves rel real s s') (hcalm : s'.Calm s'') :
      Evolves rel real s s''

namespace Evolves

variable {rel : Option (Dominance σ κ)} {real real' : σ → Nat → V → Prop}

theorem trans (h : s.Evolves rel real s') (h' : s'.Evolves rel real s'') :
    s.Evolves rel real s'' := by
  induction h' with
  | refl => exact h
  | check _ hreal ih => exact .check ih hreal
  | calm _ hcalm ih => exact .calm ih hcalm

theorem mono (himp : ∀ state depth value, real state depth value → real' state depth value)
    (h : s.Evolves rel real s') : s.Evolves rel real' s' := by
  induction h with
  | refl => exact .refl
  | check _ hreal ih => exact .check ih (himp _ _ _ hreal)
  | calm _ hcalm ih => exact .calm ih hcalm

/-- Nothing is ever struck from the journal. -/
theorem mem_events (h : s.Evolves rel real s') {e : Event σ V} (he : e ∈ s.events) :
    e ∈ s'.events := by
  induction h with
  | refl => exact he
  | check _ _ ih => exact List.mem_cons_of_mem _ ih
  | calm _ hcalm ih =>
    obtain ⟨new, hnew, _⟩ := hcalm.journal
    rw [hnew]
    exact List.mem_append_right new ih

/-- Without a relation nothing is found to be dominated. -/
theorem not_dominated (h : s.Evolves none real s') {state : σ} {depth : Nat} {value t : V}
    (hs : .checked state depth value (some t) ∉ s.events) :
    .checked state depth value (some t) ∉ s'.events := by
  induction h with
  | refl => exact hs
  | check _ _ ih =>
    intro hmem
    rcases List.mem_cons.1 hmem with heq | hmem
    · cases heq
    · exact ih hmem
  | calm _ hcalm ih =>
    obtain ⟨new, hnew, hcheck⟩ := hcalm.journal
    intro hmem
    rw [hnew] at hmem
    rcases List.mem_append.1 hmem with hmem | hmem
    · exact hcheck _ _ _ _ hmem
    · exact ih hmem

end Evolves
end Session
end DiagramSearch

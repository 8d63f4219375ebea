/-
# Which nodes of a layer are selected

`Node.Sifts` lists what selection may do to a node: keep it, set it aside for a
threshold of the cache, or set it aside for an entry of the dominance table.
`sift_sifted` follows the dominance checks one after the other;
`select_selected` adds the cache before and the order of the layer.  The
candidates that are left are the nodes that are alive, each listed once
(`Lists`).
-/

import Mathlib.Data.List.Sigma
import DiagramSearch.Proofs.Expanding
import DiagramSearch.Diagram.Selection

namespace DiagramSearch

variable {σ κ V : Type}

/-! ### Candidates -/

/-- The candidates name the nodes that are alive, each of them once. -/
structure Lists (layer : Layer σ V) (kept : List (Candidate σ V)) : Prop where
  nodup : (kept.map (·.position)).Nodup
  sound : ∀ c ∈ kept, ∃ n, layer[c.position]? = some n ∧ n.fate = .alive ∧ c.state = n.state
  complete : ∀ j n, layer[j]? = some n → n.fate = .alive → j ∈ kept.map (·.position)

theorem Lists.perm {layer : Layer σ V} {kept kept' : List (Candidate σ V)}
    (h : Lists layer kept) (hperm : kept'.Perm kept) : Lists layer kept' where
  nodup := ((hperm.map _).nodup_iff).2 h.nodup
  sound c hc := h.sound c (hperm.mem_iff.1 hc)
  complete j n hj hn := (hperm.map _).mem_iff.2 (h.complete j n hj hn)

theorem Lists.mem_iff {layer : Layer σ V} {kept : List (Candidate σ V)}
    (h : Lists layer kept) (j : Nat) :
    j ∈ kept.map (·.position) ↔ ∃ n, layer[j]? = some n ∧ n.fate = .alive := by
  constructor
  · intro hj
    obtain ⟨c, hc, rfl⟩ := List.mem_map.1 hj
    obtain ⟨n, hn, hfate, _⟩ := h.sound c hc
    exact ⟨n, hn, hfate⟩
  · rintro ⟨n, hn, hfate⟩
    exact h.complete j n hn hfate

/-- The candidates are the nodes that are alive. -/
theorem Layer.mem_candidates {layer : Layer σ V} {c : Candidate σ V} :
    c ∈ layer.candidates ↔ ∃ n, layer[c.position]? = some n ∧ n.isAlive = true ∧
      c = ⟨c.position, n.state, n.longest⟩ := by
  unfold Layer.candidates
  rw [List.mem_filterMap]
  constructor
  · rintro ⟨⟨n, i⟩, hn, hc⟩
    rw [List.mk_mem_zipIdx_iff_getElem?] at hn
    dsimp only at hc
    split at hc
    · rename_i halive
      obtain rfl := Option.some.inj hc
      exact ⟨n, by simpa using hn, halive, rfl⟩
    · cases hc
  · rintro ⟨n, hn, halive, hc⟩
    refine ⟨(n, c.position), ?_, ?_⟩
    · rw [List.mk_mem_zipIdx_iff_getElem?]
      simpa using hn
    · dsimp only
      rw [if_pos halive]
      exact congrArg some hc.symm

/-- What is read off the candidates is read off the nodes, in their order. -/
theorem Layer.map_candidates_sublist {α : Type} (layer : Layer σ V) {g : Candidate σ V → α}
    {f : Node σ V × Nat → α} (hg : ∀ n i, g ⟨i, n.state, n.longest⟩ = f (n, i)) :
    (layer.candidates.map g).Sublist (layer.toList.zipIdx.map f) := by
  unfold Layer.candidates
  induction layer.toList.zipIdx with
  | nil => exact .slnil
  | cons x xs ih =>
    rw [List.filterMap_cons, List.map_cons]
    split
    · exact ih.cons _
    · rename_i c hc
      dsimp only at hc
      split at hc
      · obtain rfl := Option.some.inj hc
        rw [List.map_cons, hg]
        exact ih.cons_cons _
      · cases hc

theorem Layer.lists_candidates (layer : Layer σ V) : Lists layer layer.candidates := by
  refine ⟨?_, ?_, ?_⟩
  · exact (List.nodup_zipIdx_map_snd layer.toList).sublist
      (layer.map_candidates_sublist fun _ _ => rfl)
  · intro c hc
    obtain ⟨n, hn, halive, heq⟩ := Layer.mem_candidates.1 hc
    exact ⟨n, hn, by simpa [Node.isAlive] using halive, by rw [heq]⟩
  · intro j n hj hn
    exact List.mem_map.2 ⟨⟨j, n.state, n.longest⟩,
      Layer.mem_candidates.2 ⟨n, hj, by simp [Node.isAlive, hn], rfl⟩, rfl⟩

/-! ### Dominance, one node after the other -/

variable [BEq σ] [BEq κ] [Value V]

/-- What the dominance checks of some candidates do to a layer. -/
structure Sifted (rel : Option (Dominance σ κ)) (real : σ → Nat → V → Prop)
    (cs : List (Candidate σ V)) (layer : Layer σ V)
    (session : Session σ κ V) (s : Selection σ κ V) : Prop where
  evolves : session.Evolves rel real s.session
  cache : s.session.cache = session.cache
  size : s.layer.size = layer.size
  sublist : s.kept.Sublist cs
  outcome : ∀ j n, layer[j]? = some n →
    (s.layer[j]? = some n ∧ (j ∈ cs.map (·.position) → j ∈ s.kept.map (·.position))) ∨
    (∃ t, s.layer[j]? = some { n with fate := .dominated, threshold := some t } ∧
      rel ≠ none ∧ n.exact = true ∧ j ∈ cs.map (·.position) ∧ j ∉ s.kept.map (·.position) ∧
      .checked n.state n.depth n.longest (some t) ∈ s.session.events)

variable {rel : Option (Dominance σ κ)} {real : σ → Nat → V → Prop}
  {cs : List (Candidate σ V)} {c : Candidate σ V} {layer : Layer σ V}
  {session session' : Session σ κ V} {s : Selection σ κ V} {n : Node σ V}

/-- A candidate that passes its check, or needs none, is kept. -/
theorem Sifted.keep (hsession : session.Evolves rel real session')
    (hcache : session'.cache = session.cache) (hc : c.position ∉ cs.map (·.position))
    (h : Sifted rel real cs layer session' s) :
    Sifted rel real (c :: cs) layer session { s with kept := c :: s.kept } where
  evolves := hsession.trans h.evolves
  cache := h.cache.trans hcache
  size := h.size
  sublist := h.sublist.cons_cons c
  outcome := by
    intro j n hj
    rcases h.outcome j n hj with ⟨hl, hkept⟩ | ⟨t, hl, hrel, hex, hmem, hnot, hevent⟩
    · refine .inl ⟨hl, fun hmem => ?_⟩
      rcases List.mem_cons.1 hmem with rfl | hmem
      · exact List.mem_cons_self
      · exact List.mem_cons_of_mem _ (hkept hmem)
    · refine .inr ⟨t, hl, hrel, hex, List.mem_cons_of_mem _ hmem, fun hin => ?_, hevent⟩
      rcases List.mem_cons.1 hin with rfl | hin
      · exact hc hmem
      · exact hnot hin

/-- A candidate that is dominated is set aside. -/
theorem Sifted.drop {t : V} (hn : layer[c.position]? = some n) (hrel : rel ≠ none)
    (hex : n.exact = true)
    (hsession : session.Evolves rel real session') (hcache : session'.cache = session.cache)
    (hevent : .checked n.state n.depth n.longest (some t) ∈ session'.events)
    (hc : c.position ∉ cs.map (·.position))
    (h : Sifted rel real cs (layer.modify c.position fun n =>
      { n with fate := .dominated, threshold := some t }) session' s) :
    Sifted rel real (c :: cs) layer session s where
  evolves := hsession.trans h.evolves
  cache := h.cache.trans hcache
  size := h.size.trans Array.size_modify
  sublist := h.sublist.cons c
  outcome := by
    intro j m hj
    by_cases hjc : c.position = j
    · subst hjc
      obtain rfl := Option.some.inj (hn.symm.trans hj)
      have hmod : (layer.modify c.position fun n =>
          { n with fate := .dominated, threshold := some t })[c.position]? =
            some { n with fate := .dominated, threshold := some t } := by
        rw [Array.getElem?_modify, if_pos rfl, hn, Option.map_some]
      rcases h.outcome _ _ hmod with ⟨hl, _⟩ | ⟨_, _, _, _, hmem, _⟩
      · refine .inr ⟨t, hl, hrel, hex, List.mem_cons_self, fun hin => ?_,
          h.evolves.mem_events hevent⟩
        exact hc ((h.sublist.map _).subset hin)
      · exact absurd hmem hc
    · have hmod : (layer.modify c.position fun n =>
          { n with fate := .dominated, threshold := some t })[j]? = some m := by
        rw [Array.getElem?_modify, if_neg hjc, hj]
      rcases h.outcome _ _ hmod with ⟨hl, hkept⟩ | ⟨t', hl, _, hex', hmem, hnot, hevent'⟩
      · refine .inl ⟨hl, fun hmem => ?_⟩
        rcases List.mem_cons.1 hmem with rfl | hmem
        · exact absurd rfl hjc
        · exact hkept hmem
      · exact .inr ⟨t', hl, hrel, hex', List.mem_cons_of_mem _ hmem, hnot, hevent'⟩

/-- **The table is asked about the exact candidates only, and those it does not
cover are kept.** -/
theorem sift_sifted (cs : List (Candidate σ V)) (layer : Layer σ V)
    (session : Session σ κ V) (hnodup : (cs.map (·.position)).Nodup)
    (hvalid : ∀ c ∈ cs, ∃ n, layer[c.position]? = some n ∧
      (n.exact = true → real n.state n.depth n.longest)) :
    Sifted rel real cs layer session (sift rel cs layer session) := by
  induction cs generalizing layer session with
  | nil =>
    exact ⟨.refl, rfl, rfl, .refl _, fun j n hj => .inl ⟨hj, fun h => absurd h List.not_mem_nil⟩⟩
  | cons c cs ih =>
    obtain ⟨n, hn, hreal⟩ := hvalid c List.mem_cons_self
    have hvalid' : ∀ c ∈ cs, ∃ n, layer[c.position]? = some n ∧
        (n.exact = true → real n.state n.depth n.longest) :=
      fun c' hc' => hvalid c' (List.mem_cons_of_mem c hc')
    rw [List.map_cons, List.nodup_cons] at hnodup
    unfold sift
    simp only [hn]
    by_cases hex : n.exact = true
    · rw [if_pos hex]
      have hevolves : session.Evolves rel real
          (session.check rel n.state n.depth n.longest).2 := .check .refl (hreal hex)
      have hevent : .checked n.state n.depth n.longest
          (session.check rel n.state n.depth n.longest).1 ∈
            (session.check rel n.state n.depth n.longest).2.events := List.mem_cons_self
      have hcache : (session.check rel n.state n.depth n.longest).2.cache = session.cache := rfl
      split
      · rename_i t session' hcheck
        rw [hcheck] at hevolves hevent hcache
        have hrel : rel ≠ none := by
          rintro rfl
          simp [Session.check] at hcheck
        refine Sifted.drop hn hrel hex hevolves hcache hevent hnodup.1 (ih _ _ hnodup.2 ?_)
        intro c' hc'
        have hne : c.position ≠ c'.position := fun h =>
          hnodup.1 (h ▸ List.mem_map_of_mem hc')
        rw [Array.getElem?_modify, if_neg hne]
        exact hvalid' c' hc'
      · rename_i session' hcheck
        rw [hcheck] at hevolves hcache
        exact Sifted.keep hevolves hcache hnodup.1 (ih _ _ hnodup.2 hvalid')
    · rw [if_neg hex]
      exact Sifted.keep .refl rfl hnodup.1 (ih _ _ hnodup.2 hvalid')

/-! ### The cache, and then dominance -/

/-- What selection may do to a node. -/
inductive Node.Sifts (rel : Option (Dominance σ κ)) (cache : Cache σ V)
    (events : List (Event σ V)) (isRoot : Bool) (n : Node σ V) :
    Node σ V → Prop where
  | kept : Sifts rel cache events isRoot n n
  | cached {t : Threshold V} (hroot : isRoot = false)
      (hget : cache.get? n.state n.depth = some t) (hle : n.longest ≤ t.value) :
      Sifts rel cache events isRoot n { n with fate := .cached, threshold := some t.value }
  | dominated {t : V} (hrel : rel ≠ none) (hexact : n.exact = true)
      (hmem : .checked n.state n.depth n.longest (some t) ∈ events) :
      Sifts rel cache events isRoot n { n with fate := .dominated, threshold := some t }

/-- What selection does to a pending layer. -/
structure Selected (r : Request σ κ V) (real : σ → Nat → V → Prop)
    (session : Session σ κ V) (isRoot : Bool) (pending : Layer σ V)
    (s : Selection σ κ V) : Prop where
  evolves : session.Evolves r.dominance real s.session
  cache : s.session.cache = session.cache
  size : s.layer.size = pending.size
  sifts : ∀ (j : Nat) (n : Node σ V), pending[j]? = some n →
    ∃ n', s.layer[j]? = some n' ∧ n.Sifts r.dominance session.cache s.session.events isRoot n'
  lists : Lists s.layer s.kept

/-- Every node of a selected layer is what became of a pending one. -/
theorem Selected.of_mem {r : Request σ κ V} {isRoot : Bool} {pending : Layer σ V}
    (h : Selected r real session isRoot pending s) {n' : Node σ V} (hn' : n' ∈ s.layer) :
    ∃ n ∈ pending, n.Sifts r.dominance session.cache s.session.events isRoot n' := by
  obtain ⟨j, hj⟩ := Array.mem_iff_getElem?.1 hn'
  have hlt : j < pending.size := h.size ▸ (Array.getElem?_eq_some_iff.1 hj).1
  obtain ⟨m, hm, hsifts⟩ := h.sifts j _ (Array.getElem?_eq_getElem hlt)
  obtain rfl := Option.some.inj (hj.symm.trans hm)
  exact ⟨_, Array.getElem_mem hlt, hsifts⟩

omit [BEq κ] in
theorem Node.screen_cases (n : Node σ V) (cache : Cache σ V) :
    n.screen cache = n ∨ ∃ t, cache.get? n.state n.depth = some t ∧ n.longest ≤ t.value ∧
      n.screen cache = { n with fate := .cached, threshold := some t.value } := by
  unfold Node.screen
  split
  · rename_i t ht
    split
    · rename_i hle
      exact .inr ⟨t, ht, hle, rfl⟩
    · exact .inl rfl
  · exact .inl rfl

/-- The layer that is asked about: what the cache rules out is set aside. -/
def Layer.screened (pending : Layer σ V) (cache : Cache σ V) (isRoot : Bool) : Layer σ V :=
  if isRoot then pending else pending.map fun n => n.screen cache

omit [BEq κ] in
theorem Layer.size_screened (pending : Layer σ V) (cache : Cache σ V) (isRoot : Bool) :
    (pending.screened cache isRoot).size = pending.size := by
  unfold screened
  split
  · rfl
  · exact Array.size_map

omit [BEq κ] in
/-- A node stays what it was, or the cache sets it aside. -/
theorem Layer.getElem?_screened {pending : Layer σ V} {j : Nat} {n : Node σ V}
    (hj : pending[j]? = some n) (cache : Cache σ V) (isRoot : Bool) :
    ∃ n', (pending.screened cache isRoot)[j]? = some n' ∧
      (n' = n ∨ ∃ t, isRoot = false ∧ cache.get? n.state n.depth = some t ∧
        n.longest ≤ t.value ∧ n' = { n with fate := .cached, threshold := some t.value }) := by
  cases isRoot with
  | true => exact ⟨n, hj, .inl rfl⟩
  | false =>
    refine ⟨n.screen cache, by simp [screened, hj], ?_⟩
    rcases n.screen_cases cache with heq | ⟨t, ht, hle, heq⟩
    · exact .inl heq
    · exact .inr ⟨t, rfl, ht, hle, heq⟩

/-- Selection is screening, and then asking the dominance table. -/
theorem select_eq (r : Request σ κ V) (session : Session σ κ V) (isRoot : Bool)
    (pending : Layer σ V) : select r session isRoot pending =
      sift r.dominance
        (Reduction.sortByCost r.ranking (pending.screened session.cache isRoot).candidates)
        (pending.screened session.cache isRoot) session :=
  rfl

/-- **Selection keeps the nodes that neither the cache nor the dominance table
covers.** -/
theorem select_selected (r : Request σ κ V) (session : Session σ κ V) (isRoot : Bool)
    (pending : Layer σ V)
    (hreal : ∀ n ∈ pending, n.exact = true → real n.state n.depth n.longest) :
    Selected r real session isRoot pending (select r session isRoot pending) := by
  rw [select_eq]
  have hscreened := fun (j : Nat) (n : Node σ V) (hj : pending[j]? = some n) =>
    Layer.getElem?_screened hj session.cache isRoot
  have hsize := pending.size_screened session.cache isRoot
  generalize pending.screened session.cache isRoot = screened at hscreened hsize ⊢
  have hback : ∀ (j : Nat) n', screened[j]? = some n' → ∃ n, pending[j]? = some n := by
    intro j n' hj
    have hlt : j < pending.size := hsize ▸ (Array.getElem?_eq_some_iff.1 hj).1
    exact ⟨_, Array.getElem?_eq_getElem hlt⟩
  have hlists : Lists screened (Reduction.sortByCost r.ranking screened.candidates) :=
    (Layer.lists_candidates screened).perm (Ordered.sort_perm _ _)
  have h : Sifted r.dominance real (Reduction.sortByCost r.ranking screened.candidates) screened
      session (sift r.dominance (Reduction.sortByCost r.ranking screened.candidates) screened
        session) := by
    refine sift_sifted _ _ _ hlists.nodup fun c hc => ?_
    obtain ⟨n', hn', hfate, _⟩ := hlists.sound c hc
    obtain ⟨n, hn⟩ := hback _ _ hn'
    obtain ⟨m, hm, hcase⟩ := hscreened _ _ hn
    obtain rfl := Option.some.inj (hn'.symm.trans hm)
    refine ⟨n', hn', fun hex => ?_⟩
    rcases hcase with rfl | ⟨t, _, _, _, rfl⟩
    · exact hreal n' (Array.mem_of_getElem? hn) hex
    · cases hfate
  refine ⟨h.evolves, h.cache, h.size.trans hsize, fun j n hj => ?_, ?_, ?_, ?_⟩
  · obtain ⟨n', hn', hcase⟩ := hscreened j n hj
    rcases h.outcome j n' hn' with ⟨hl, _⟩ | ⟨t, hl, hrel, hex, hmem, _, hevent⟩
    · refine ⟨n', hl, ?_⟩
      rcases hcase with rfl | ⟨t, hroot, hget, hle, rfl⟩
      · exact .kept
      · exact .cached hroot hget hle
    · refine ⟨_, hl, ?_⟩
      rcases hcase with rfl | ⟨_, _, _, _, rfl⟩
      · exact .dominated hrel hex hevent
      · -- A node that the cache set aside is no candidate.
        obtain ⟨c, hc, rfl⟩ := List.mem_map.1 hmem
        obtain ⟨m, hm, hfate, _⟩ := hlists.sound c hc
        obtain rfl := Option.some.inj (hn'.symm.trans hm)
        cases hfate
  · exact hlists.nodup.sublist (h.sublist.map _)
  · intro c hc
    obtain ⟨n, hn, hfate, hstate⟩ := hlists.sound c (h.sublist.subset hc)
    rcases h.outcome _ n hn with ⟨hl, _⟩ | ⟨_, _, _, _, _, hnot, _⟩
    · exact ⟨n, hl, hfate, hstate⟩
    · exact absurd (List.mem_map_of_mem hc) hnot
  · intro j m hj hfate
    have hlt : j < screened.size := h.size ▸ (Array.getElem?_eq_some_iff.1 hj).1
    have hn := Array.getElem?_eq_getElem hlt
    rcases h.outcome j _ hn with ⟨hl, hkept⟩ | ⟨t, hl, _⟩
    · obtain rfl := Option.some.inj (hj.symm.trans hl)
      exact hkept (hlists.complete j _ hn hfate)
    · obtain rfl := Option.some.inj (hj.symm.trans hl)
      cases hfate

end DiagramSearch

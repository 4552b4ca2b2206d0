import SecondQuant.Proofs.Relabelling

/-!
# Contracting relabelled words

A pattern looks at the tags of operators, at the spaces of their indices and at nothing else of
them, so what it does to a relabelled word is what it does to the word itself: the same pairs are
obstructed, the sign is the same, and what is left is relabelled.  Only the orientation of a value
depends on labels, and it follows their order.

* `Word.chain_rename`, `Word.accepts_rename` — the chain of a renamed word.
* `Pattern.contracts_rename`, `Word.contractionSign_relabel` — pairs and signs.
* `Tensor.between_relabel`, `Word.contractedLetters_relabel` — values, and what is left.
* `Word.usesOnly_contractedLetters` — contraction brings no new indices.
* `Expr.contract_relabel` — the contraction of a relabelled tree.
-/

namespace SecondQuant

variable {r : Renaming} {is : List Index}

/-! ## Chains -/

namespace ChainOperator

/-- The operator with its indices renamed. -/
def rename (r : Renaming) (o : ChainOperator) : ChainOperator :=
  ⟨o.source.rename r, o.ladder, r o.index⟩

/-- A renamed tensor is read as the renamed operator. -/
theorem read?_rename (r : Renaming) (t : Tensor) :
    read? (t.rename r) = (read? t).map (rename r) := by
  have helementary : (t.rename r).elementary? = t.elementary?.map fun x => (x.1, r x.2) := by
    obtain ⟨_, upper, lower, _, ladder⟩ := t
    match ladder, upper, lower with
    | none, _, _ => rfl
    | some _, [], [] => rfl
    | some _, [], [_] => rfl
    | some _, [], _ :: _ :: _ => rfl
    | some _, _ :: _, _ => rfl
  rw [read?, helementary, read?, Option.map_map, Option.map_map]
  rfl

end ChainOperator

namespace Word

variable {w : Word}

theorem operators_rename (r : Renaming) (w : Word) :
    operators (w.map (Tensor.rename r)) = w.operators.map (Tensor.rename r) :=
  List.filter_map

theorem cNumbers_rename (r : Renaming) (w : Word) :
    cNumbers (w.map (Tensor.rename r)) = w.cNumbers.map (Tensor.rename r) :=
  List.filter_map

/-- The chain of a renamed word is the renamed chain. -/
theorem chain_rename (r : Renaming) (w : Word) :
    chain (w.map (Tensor.rename r)) = w.chain.map (ChainOperator.rename r) := by
  rw [chain, operators_rename, List.filterMap_map, chain, List.map_filterMap]
  exact List.filterMap_congr fun t _ => ChainOperator.read?_rename r t

/-- A renamed word accepts the same patterns. -/
theorem accepts_rename (r : Renaming) (M : Pattern) (w : Word) :
    Accepts M (w.map (Tensor.rename r)) ↔ w.Accepts M := by
  have hread : ∀ t, (ChainOperator.read? (t.rename r)).isSome =
      (ChainOperator.read? t).isSome := fun t => by
    rw [ChainOperator.read?_rename, Option.isSome_map]
  rw [Accepts, Accepts, WellFormed, WellFormed, operators_rename, chain_rename, List.length_map,
    List.forall_mem_map]
  simp only [hread]

/-- The index of a chain operator is an index of the word. -/
theorem index_mem_indices {o : ChainOperator} (ho : o ∈ w.chain) : o.index ∈ w.indices := by
  obtain ⟨t, ht, hread⟩ := List.mem_filterMap.mp ho
  obtain ⟨x, hx, rfl⟩ := Option.map_eq_some_iff.mp hread
  refine mem_indices.mpr ⟨t, (List.mem_filter.mp ht).1, ?_⟩
  rw [Tensor.indices, (Tensor.elementary?_eq_some hx).2.2]
  exact List.mem_append_right _ (List.mem_singleton.mpr rfl)

end Word

/-! ## Pairs and signs -/

section Pairs

variable {chain : List ChainOperator}

theorem Pair.contracts_rename (h : ∀ o ∈ chain, (r o.index).space = o.index.space) (p : Pair) :
    p.contracts (chain.map (ChainOperator.rename r)) = p.contracts chain := by
  rw [contracts, contracts, List.getElem?_map, List.getElem?_map]
  cases hl : chain[p.left]? with
  | none => rfl
  | some l =>
      cases hr : chain[p.right]? with
      | none => rfl
      | some l' =>
          simp only [Option.map_some, ChainOperator.contracts, ChainOperator.rename,
            h l (List.mem_of_getElem? hl), h l' (List.mem_of_getElem? hr)]

/-- Which pairs can be contracted depends on the spaces of the indices only. -/
theorem Pattern.contracts_rename (h : ∀ o ∈ chain, (r o.index).space = o.index.space)
    (M : Pattern) :
    M.contracts (chain.map (ChainOperator.rename r)) = M.contracts chain := by
  rw [contracts, contracts, funext (Pair.contracts_rename h)]

theorem fermionPositions_rename (r : Renaming) (chain : List ChainOperator) :
    fermionPositions (chain.map (ChainOperator.rename r)) = fermionPositions chain := by
  rw [fermionPositions, List.zipIdx_map, List.filter_map, List.map_map, fermionPositions]
  rfl

theorem Pair.isFermionic_rename (r : Renaming) (chain : List ChainOperator) (p : Pair) :
    p.isFermionic (chain.map (ChainOperator.rename r)) = p.isFermionic chain := by
  rw [isFermionic, isFermionic, List.getElem?_map]
  cases chain[p.left]? <;> rfl

theorem remaining_rename (r : Renaming) (chain : List ChainOperator) (M : Pattern) :
    remaining (chain.map (ChainOperator.rename r)) M =
      (remaining chain M).map (ChainOperator.rename r) := by
  rw [remaining, List.zipIdx_map, List.filter_map, List.map_map, remaining, List.map_map]
  rfl

end Pairs

namespace Word

variable {w : Word}

theorem index_mem_of_usesOnly (huses : ∀ t ∈ w, t.UsesOnly is) : ∀ o ∈ w.chain, o.index ∈ is :=
  fun _ ho => usesOnly_iff.mp huses _ (index_mem_indices ho)

theorem contracts_relabel (h : Relabels r is) (huses : ∀ t ∈ w, t.UsesOnly is) (M : Pattern) :
    M.contracts (chain (w.map (Tensor.rename r))) = M.contracts w.chain := by
  rw [chain_rename]
  exact Pattern.contracts_rename (fun o ho => h.space _ (index_mem_of_usesOnly huses o ho)) M

/-- The sign of a contraction does not depend on the labels. -/
theorem contractionSign_relabel (h : Relabels r is) (huses : ∀ t ∈ w, t.UsesOnly is) {M : Pattern}
    (hc : M.contracts w.chain = true) :
    contractionSign M (w.map (Tensor.rename r)) = w.contractionSign M := by
  have hc' := (contracts_relabel h huses M).trans hc
  rw [contractionSign, linksSign_ofChain hc', contractionSign, linksSign_ofChain hc, chain_rename,
    fermionPositions_rename, funext (Pair.isFermionic_rename r w.chain)]

end Word

/-! ## Values -/

/-- A value is oriented by the order of its indices, which relabelling keeps. -/
theorem Tensor.between_relabel (h : Relabels r is) (name : String) {i j : Index} (hi : i ∈ is)
    (hj : j ∈ is) : between name (r i) (r j) = (between name i j).rename r := by
  unfold between
  rw [h.compare_eq hi hj]
  split
  · rfl
  · rfl

theorem Tensor.mem_indices_between {name : String} {i j k : Index} :
    k ∈ (between name i j).indices ↔ k = i ∨ k = j := by
  unfold between
  split
  · simp [indices, cNumber]
  · simp [indices, cNumber, or_comm]

/-- The link with its operators renamed. -/
def Link.rename (r : Renaming) (l : Link) : Link :=
  ⟨l.pair, l.left.rename r, l.right.rename r⟩

theorem link?_rename (r : Renaming) (chain : List ChainOperator) (p : Pair) :
    link? (chain.map (ChainOperator.rename r)) p = (link? chain p).map (Link.rename r) := by
  rw [link?, link?, List.getElem?_map, List.getElem?_map]
  cases chain[p.left]? <;> cases chain[p.right]? <;> rfl

theorem mem_of_mem_links {chain : List ChainOperator} {ps : List Pair} {l : Link}
    (h : l ∈ links chain ps) : l.left ∈ chain ∧ l.right ∈ chain := by
  obtain ⟨p, _, hp⟩ := List.mem_filterMap.mp h
  unfold link? at hp
  split at hp
  · next hl hr =>
      obtain rfl := Option.some.inj hp
      exact ⟨List.mem_of_getElem? hl, List.mem_of_getElem? hr⟩
  · cases hp

namespace Link

variable {orthonormal : Bool} {l : Link}

theorem tensor?_relabel (h : Relabels r is) (hl : l.left.index ∈ is) (hr : l.right.index ∈ is) :
    (l.rename r).tensor? orthonormal = (l.tensor? orthonormal).map (Tensor.rename r) := by
  have hbetween : ∀ name, Tensor.between name (l.rename r).left.index (l.rename r).right.index =
      (Tensor.between name l.left.index l.right.index).rename r := fun name =>
    Tensor.between_relabel h name hl hr
  have hsame : (l.rename r).left.index = (l.rename r).right.index ↔
      l.left.index = l.right.index := h.eq_iff hl hr
  rw [tensor?, tensor?, hbetween, hbetween]
  simp only [hsame]
  split
  · split
    · rfl
    · rfl
  · rfl

/-- The tensor of a link has the indices of its operators. -/
theorem usesOnly_tensor? {t : Tensor} (ht : l.tensor? orthonormal = some t)
    (hl : l.left.index ∈ is) (hr : l.right.index ∈ is) : t.UsesOnly is := by
  have hbetween : ∀ name, (Tensor.between name l.left.index l.right.index).UsesOnly is := by
    intro name i hi
    rcases Tensor.mem_indices_between.mp hi with rfl | rfl
    · exact hl
    · exact hr
  unfold tensor? at ht
  split at ht
  · split at ht
    · cases ht
    · exact Option.some.inj ht ▸ hbetween _
  · exact Option.some.inj ht ▸ hbetween _

end Link

/-- The tensors of the pairs are relabelled. -/
theorem contractionTensors_relabel (h : Relabels r is) {chain : List ChainOperator}
    (hchain : ∀ o ∈ chain, o.index ∈ is) (orthonormal : Bool) (ps : List Pair) :
    contractionTensors orthonormal (chain.map (ChainOperator.rename r)) ps =
      (contractionTensors orthonormal chain ps).map (Tensor.rename r) := by
  have hlinks : links (chain.map (ChainOperator.rename r)) ps =
      (links chain ps).map (Link.rename r) := by
    rw [links, links, List.map_filterMap]
    exact List.filterMap_congr fun p _ => link?_rename r chain p
  rw [contractionTensors, hlinks, List.filterMap_map, contractionTensors, List.map_filterMap]
  refine List.filterMap_congr fun l hl => ?_
  obtain ⟨hleft, hright⟩ := mem_of_mem_links hl
  exact Link.tensor?_relabel h (hchain _ hleft) (hchain _ hright)

/-! ## Words -/

namespace Word

variable {o : Options} {M : Pattern} {w : Word}

/-- What a pattern leaves of a relabelled word is relabelled. -/
theorem contractedLetters_relabel (h : Relabels r is) (huses : ∀ t ∈ w, t.UsesOnly is) :
    contractedLetters o M (w.map (Tensor.rename r)) =
      (w.contractedLetters o M).map (Tensor.rename r) := by
  have hchain := index_mem_of_usesOnly huses
  rw [contractedLetters, contractedLetters, cNumbers_rename, chain_rename,
    contractionTensors_relabel h hchain, remaining_rename, List.map_append, List.map_append,
    List.map_map, List.map_map]
  rfl

/-- Contraction brings no new indices. -/
theorem usesOnly_contractedLetters (huses : ∀ t ∈ w, t.UsesOnly is) :
    ∀ t ∈ w.contractedLetters o M, t.UsesOnly is := by
  have hchain := index_mem_of_usesOnly huses
  refine List.forall_mem_append.mpr ⟨List.forall_mem_append.mpr ⟨?_, ?_⟩, ?_⟩
  · exact fun t ht => huses t (List.mem_filter.mp ht).1
  · intro t ht
    obtain ⟨l, hl, ht⟩ := List.mem_filterMap.mp ht
    obtain ⟨hleft, hright⟩ := mem_of_mem_links hl
    exact Link.usesOnly_tensor? ht (hchain _ hleft) (hchain _ hright)
  · refine List.forall_mem_map.mpr fun x hx => ?_
    obtain ⟨t, ht, hread⟩ := List.mem_filterMap.mp (mem_of_mem_remaining hx)
    rw [ChainOperator.source_of_read? hread]
    exact huses t (List.mem_filter.mp ht).1

open OperatorAlgebra (gen)

/-- The contraction of a word is worth its sign times its letters, if its pairs can be
contracted. -/
theorem eval_contract (o : Options) (M : Pattern) (w : Word) :
    WordSum.eval gen (w.contract o M) =
      if M.contracts w.chain then
        (w.contractionSign M).toRat • Word.eval gen (w.contractedLetters o M) else 0 := by
  rw [contract]
  split
  · rw [WordSum.eval_cons, WordSum.eval_nil, add_zero, contracted,
      eval_normal OperatorAlgebra.lawful_gen.commute]
  · exact WordSum.eval_nil gen

/-- The contraction of a relabelled word is worth the relabelled contraction. -/
theorem eval_contract_relabel (h : Relabels r is) (huses : ∀ t ∈ w, t.UsesOnly is) :
    WordSum.eval gen (contract o M (w.map (Tensor.rename r))) =
      OperatorAlgebra.rename r (WordSum.eval gen (w.contract o M)) := by
  rw [eval_contract, eval_contract, contracts_relabel h huses]
  cases hc : M.contracts w.chain with
  | false => exact (map_zero _).symm
  | true =>
      rw [if_pos rfl, if_pos rfl, map_smul, contractionSign_relabel h huses hc,
        contractedLetters_relabel h huses, eval_rename]

end Word

/-! ## Trees -/

/-- The contraction of a sum of words brings no new indices. -/
theorem WordSum.usesOnly_contract {o : Options} {M : Pattern} {p : WordSum}
    (huses : p.UsesOnly is) : (p.contract o M).UsesOnly is := by
  refine Combination.mem_collect (P := fun w : Word => ∀ x ∈ w, x.UsesOnly is) fun t ht => ?_
  obtain ⟨s, hs, ht⟩ := List.mem_flatMap.mp ht
  obtain ⟨x, hx, rfl⟩ := List.mem_map.mp ht
  unfold Word.contract at hx
  split at hx
  · obtain rfl := List.mem_singleton.mp hx
    intro u hu
    exact Word.usesOnly_contractedLetters (huses s hs) u ((Word.normal_perm _).mem_iff.mp hu)
  · cases hx

namespace Expr

variable {e : Expr}

/-- A sum over the words of a relabelled tree is one over those of the tree. -/
theorem eval_words_rename {N : Type} [AddCommMonoid N] [Module ℚ N] (f : Word → N)
    (he : e.IsCanonical) (h : Relabels r e.indices) :
    Combination.eval f (e.rename r).words =
      Combination.eval (fun w => f (w.map (Tensor.rename r))) e.words := by
  rw [words_rename he h, WordSum.relabel, Combination.eval_map]

/-- The contraction of a relabelled tree is the relabelled contraction. -/
theorem contract_relabel (o : Options) (M : Pattern) (he : e.IsCanonical)
    (h : Relabels r e.indices) :
    ((e.rename r).words.contract o M).toExpr = (e.words.contract o M).toExpr.rename r := by
  refine eq_of_denote_eq (isCanonical_toExpr_contract o M _) (isCanonical_rename r _) ?_
  rw [denote_toExpr_contract, eval_words_rename _ he h, denote_rename, denote_toExpr_contract]
  refine (Combination.eval_congr fun t ht => ?_).trans
    (Combination.map_eval (OperatorAlgebra.rename r).toLinearMap _ _).symm
  exact Word.eval_contract_relabel h (usesOnly_words he t ht)

/-- The contraction of a tree brings no new indices. -/
theorem mem_indices_contract {o : Options} {M : Pattern} (he : e.IsCanonical) {i : Index}
    (hi : i ∈ (e.words.contract o M).toExpr.indices) : i ∈ e.indices := by
  have hcan : (e.words.contract o M).IsCanonical :=
    WordSum.isCanonical_contract e.isCanonical_canonicalWords_expand
  refine of_mem_indices_toExpr (Q := fun i => i ∈ e.indices) hcan ⟨hcan.1, fun t ht => ?_⟩ hi
  exact ⟨(hcan.2 t ht).1, WordSum.usesOnly_contract (usesOnly_words he) t ht⟩

end Expr

end SecondQuant

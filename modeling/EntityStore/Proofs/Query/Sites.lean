import EntityStore.Proofs.Query.Form
import EntityStore.Proofs.Query.Memo
import EntityStore.Query.Nesting

/-! The sites of subqueries. Every part of a filter is compiled below its own position, so a
compiled filter tells its subqueries apart (`Filter.distinct_of_compile`), and what it remembers of
one is never taken for another. -/

namespace EntityStore

/-- All subqueries are below a site, at positions from an index on, and no two share their site. -/
structure Placed (site : Site) (index : Nat) (subqueries : List Subquery) : Prop where
  nodup : (subqueries.map (·.site)).Nodup
  below : ∀ q ∈ subqueries, ∃ k, index ≤ k ∧ k :: site <:+ q.site

/-- All subqueries are at a site or below it, and no two share their site. -/
structure Under (site : Site) (subqueries : List Subquery) : Prop where
  nodup : (subqueries.map (·.site)).Nodup
  suffix : ∀ q ∈ subqueries, site <:+ q.site

namespace Placed

variable {site : Site} {index : Nat} {subqueries subqueries' : List Subquery}

theorem nil (site : Site) (index : Nat) : Placed site index [] := ⟨.nil, nofun⟩

theorem under (h : Placed site index subqueries) : Under site subqueries where
  nodup := h.nodup
  suffix q hq := by
    obtain ⟨k, -, hk⟩ := h.below q hq
    exact (List.suffix_cons k site).trans hk

theorem of_succ (h : Placed site (index + 1) subqueries) : Placed site index subqueries where
  nodup := h.nodup
  below q hq := by
    obtain ⟨k, hle, hk⟩ := h.below q hq
    exact ⟨k, Nat.le_of_succ_le hle, hk⟩

theorem append (h : Under (index :: site) subqueries)
    (h' : Placed site (index + 1) subqueries') : Placed site index (subqueries ++ subqueries') where
  nodup := by
    rw [List.map_append]
    refine List.nodup_append.mpr ⟨h.nodup, h'.nodup, fun s hs s' hs' he => ?_⟩
    obtain ⟨q, hq, rfl⟩ := List.mem_map.mp hs
    obtain ⟨q', hq', rfl⟩ := List.mem_map.mp hs'
    obtain ⟨k, hle, hk⟩ := h'.below q' hq'
    have hindex := h.suffix q hq
    rw [he] at hindex
    -- two suffixes of the same length are the same
    have hsuffix := List.suffix_of_suffix_length_le hindex hk (Nat.le_refl _)
    cases hsuffix.eq_of_length rfl
    exact absurd hle (Nat.not_succ_le_self _)
  below q hq := by
    rcases List.mem_append.mp hq with hq | hq
    · exact ⟨index, Nat.le_refl _, h.suffix q hq⟩
    · exact h'.of_succ.below q hq

/-- A subquery stands above those in its filter. -/
theorem cons {q : Subquery} (h : Placed q.site index subqueries) :
    Under q.site (q :: subqueries) where
  nodup := by
    refine List.nodup_cons.mpr ⟨fun hmem => ?_, h.nodup⟩
    obtain ⟨q', hq', he⟩ := List.mem_map.mp hmem
    obtain ⟨k, -, hk⟩ := h.below q' hq'
    have hlength := hk.length_le
    rw [he] at hlength
    exact absurd hlength (Nat.not_succ_le_self _)
  suffix := List.forall_mem_cons.mpr ⟨List.suffix_refl _, h.under.suffix⟩

end Placed

namespace Filter

/-- Whatever a document is compiled to is placed at the site of the compilation. -/
def CompilesPlaced (schema : Schema) (document : Json) : Prop :=
  ∀ {entity obscure site f}, compile schema entity obscure site document = .ok f →
    Placed site 0 f.subqueries

variable {schema : Schema} {entity attr name : String} {obscure : Bool} {site : Site} {index : Nat}

theorem compileItems_placed {items : List Json} {parts : List Filter}
    (hitems : ∀ x ∈ items, CompilesPlaced schema x)
    (h : compileItems schema entity obscure site index items = .ok parts) :
    Placed site index (subqueriesParts parts) := by
  induction items generalizing index parts with
  | nil =>
    cases h
    exact .nil site index
  | cons x xs ih =>
    obtain ⟨hx, hxs⟩ := List.forall_mem_cons.mp hitems
    rw [compileItems_cons] at h
    obtain ⟨part, hpart, h⟩ := bind_eq_ok.mp h
    obtain ⟨parts, hparts, rfl⟩ := map_eq_ok.mp h
    exact .append (hx hpart).under (ih hxs hparts)

theorem compileCandidates_under {operand : Json} {candidates : Candidates}
    (hoperand : operand.Throughout (CompilesPlaced schema))
    (h : compileCandidates schema name attr site operand = .ok candidates) :
    Under site (subqueriesCandidates candidates) := by
  cases operand with
  | arr items =>
    cases h
    exact (Placed.nil site 0).under
  | obj fields =>
    rw [compileCandidates_obj] at h
    obtain ⟨column, -, h⟩ := bind_eq_ok.mp (mapError_eq_ok.mp h)
    obtain ⟨filter, hfilter, rfl⟩ := map_eq_ok.mp h
    have hplaced : Placed site 0 filter.subqueries := by
      cases hget : Fields.get? fields "filter" with
      | none =>
        rw [hget] at hfilter
        cases hfilter
        exact .nil site 0
      | some document =>
        rw [hget] at hfilter
        exact (hoperand.field (Fields.mem_of_get? hget)).self hfilter
    exact Placed.cons (q := ⟨site, column.1, column.2, filter, _⟩) hplaced
  | null | bool _ | num _ | str _ => cases h

theorem compileTest_under {operand : Json} {test : Test}
    (hoperand : operand.Throughout (CompilesPlaced schema))
    (h : compileTest schema attr site name operand = .ok test) :
    Under site (subqueriesTest test) := by
  unfold compileTest at h
  split at h
  · obtain ⟨candidates, hcandidates, rfl⟩ := map_eq_ok.mp h
    have hunder := compileCandidates_under hoperand hcandidates
    split <;> exact hunder
  · rw [subqueriesTest_of_plainTest h]
    exact (Placed.nil site 0).under

theorem compileTests_placed {operators : List (String × Json)} {tests : List Test}
    (hoperators : ∀ operator ∈ operators, operator.2.Throughout (CompilesPlaced schema))
    (h : compileTests schema attr site index operators = .ok tests) :
    Placed site index (subqueriesTests tests) := by
  induction operators generalizing index tests with
  | nil =>
    cases h
    exact .nil site index
  | cons operator rest ih =>
    obtain ⟨hoperand, hoperators⟩ := List.forall_mem_cons.mp hoperators
    rw [compileTests_cons] at h
    obtain ⟨test, htest, h⟩ := bind_eq_ok.mp h
    obtain ⟨tests, hrest, rfl⟩ := map_eq_ok.mp h
    exact .append (compileTest_under hoperand htest) (ih hoperators hrest)

theorem compileField_placed {key : String} {value : Json} {clause : Clause}
    (hvalue : value.Throughout (CompilesPlaced schema))
    (h : compileField schema entity obscure site key value = .ok clause) :
    Placed site 0 (subqueriesClause clause) := by
  obtain ⟨form, hform, h⟩ := bind_eq_ok.mp h
  have hheld := value_of_clauseForm hform
  cases form with
  | junction stop items =>
    obtain ⟨parts, hparts, rfl⟩ := map_eq_ok.mp h
    rw [hheld] at hvalue
    have hplaced := compileItems_placed (fun x hx => (hvalue.item hx).self) hparts
    cases stop <;> exact hplaced
  | not document | relation p document =>
    obtain ⟨part, hpart, rfl⟩ := map_eq_ok.mp h
    rw [hheld] at hvalue
    exact hvalue.self hpart
  | plain plain =>
    cases h
    rw [PlainClause.subqueries hheld]
    exact .nil site 0
  | tests attr operators =>
    obtain ⟨tests, htests, rfl⟩ := map_eq_ok.mp h
    rw [hheld.2] at hvalue
    exact compileTests_placed (fun _ hmem => hvalue.field hmem) htests

theorem compileFields_placed {fields : List (String × Json)} {clauses : List Clause}
    (hfields : ∀ field ∈ fields, field.2.Throughout (CompilesPlaced schema))
    (h : compileFields schema entity obscure site index fields = .ok clauses) :
    Placed site index (subqueriesClauses clauses) := by
  induction fields generalizing index clauses with
  | nil =>
    cases h
    exact .nil site index
  | cons field rest ih =>
    obtain ⟨hvalue, hrest⟩ := List.forall_mem_cons.mp hfields
    obtain ⟨key, value⟩ := field
    by_cases hk : key = "#id"
    · rw [hk, compileFields_label] at h
      exact (ih hrest h).of_succ
    · rw [compileFields_cons hk] at h
      obtain ⟨clause, hclause, h⟩ := bind_eq_ok.mp h
      obtain ⟨clauses, hclauses, rfl⟩ := map_eq_ok.mp h
      exact .append (compileField_placed hvalue hclause).under (ih hrest hclauses)

theorem compile_placed (document : Json) : CompilesPlaced schema document := by
  induction document using Json.document_induction with
  | object fields ih =>
    intro entity obscure site f h
    rw [compile] at h
    obtain ⟨label, -, h⟩ := bind_eq_ok.mp h
    obtain ⟨clauses, hclauses, h⟩ := bind_eq_ok.mp h
    cases h
    exact compileFields_placed ih hclauses
  | other document hdocument =>
    intro entity obscure site f h
    cases document with
    | obj fields => exact absurd rfl (hdocument fields)
    | _ => cases h

/-- A compiled filter tells its subqueries apart. -/
theorem distinct_of_compile {document : Json} {f : Filter}
    (h : compile schema entity obscure site document = .ok f) : Distinct f.subqueries := by
  have hpairs := List.pairwise_map.mp (compile_placed document h).nodup
  refine List.Pairwise.forall_of_forall_of_flip (fun q _ _ => rfl) ?_ ?_
  · exact hpairs.imp fun hne he => absurd he hne
  · exact hpairs.imp fun hne he => absurd he.symm hne

end Filter

end EntityStore

import IntentGrammar.Pattern.Label
import Mathlib.Data.List.Basic

/-!
# Nodes of a pattern

Induction over patterns with one case for each kind of node (`Pattern.node_induction`), and what
the list `Pattern.nodes` of all nodes is good for: it is closed downwards
(`Pattern.mem_nodes_trans`), no node lies below itself (`Pattern.not_mem_nodes_child`), and in a
labelled pattern a label names one node (`Pattern.IsLabelled.eq_of_label?`), which holds of every
pattern whose labels are all different (`Pattern.isLabelled_of_nodup`), and so of every pattern that
was numbered (`Pattern.isLabelled_number`).
-/

namespace IntentGrammar.Pattern

/-- The nodes right below a node. -/
def children : Pattern → List Pattern
  | .choice _ options _ => options
  | .series _ parts => parts
  | .slot _ _ inner _ => [inner]
  | _ => []

theorem sizeOf_lt_of_mem_children {p q : Pattern} (h : q ∈ p.children) : sizeOf q < sizeOf p := by
  cases p with
  | choice l options optional =>
    have := List.sizeOf_lt_of_mem (show q ∈ options from h)
    simp only [choice.sizeOf_spec]
    omega
  | series l parts =>
    have := List.sizeOf_lt_of_mem (show q ∈ parts from h)
    simp only [series.sizeOf_spec]
    omega
  | slot l name inner kind =>
    obtain rfl := List.mem_singleton.1 h
    simp only [slot.sizeOf_spec]
    omega
  | word | wildcard | foreign => cases h

/-- What holds of a node if it holds of the nodes right below it holds of every node. -/
@[elab_as_elim]
theorem child_induction {motive : Pattern → Prop}
    (step : ∀ p, (∀ c ∈ p.children, motive c) → motive p) (p : Pattern) : motive p :=
  step p fun c _ => child_induction step c
termination_by sizeOf p
decreasing_by exact sizeOf_lt_of_mem_children ‹_›

/-- Induction over a pattern, with one case for each kind of node. -/
@[elab_as_elim]
theorem node_induction {motive : Pattern → Prop}
    (word : ∀ l literal optional, motive (.word l literal optional))
    (wildcard : ∀ l optional, motive (.wildcard l optional))
    (choice : ∀ l options optional, (∀ p ∈ options, motive p) →
      motive (.choice l options optional))
    (series : ∀ l parts, (∀ p ∈ parts, motive p) → motive (.series l parts))
    (slot : ∀ l name inner kind, motive inner → motive (.slot l name inner kind))
    (foreign : ∀ v, motive (.foreign v)) (p : Pattern) : motive p := by
  induction p using child_induction with
  | step p ih =>
    cases p with
    | word l literal optional => exact word l literal optional
    | wildcard l optional => exact wildcard l optional
    | choice l options optional => exact choice l options optional ih
    | series l parts => exact series l parts ih
    | slot l name inner kind => exact slot l name inner kind (ih inner (by simp [children]))
    | foreign v => exact foreign v

/-! ### The list of all nodes -/

theorem nodes_eq (p : Pattern) : p.nodes = p :: p.children.flatMap nodes := by
  cases p <;> simp [nodes, children, nodesOfAll_eq]

theorem mem_nodes_self (p : Pattern) : p ∈ p.nodes := by
  rw [nodes_eq]; exact List.mem_cons_self

theorem mem_nodes {p q : Pattern} : q ∈ p.nodes ↔ q = p ∨ ∃ c ∈ p.children, q ∈ c.nodes := by
  rw [nodes_eq, List.mem_cons, List.mem_flatMap]

theorem mem_nodes_of_child {p c q : Pattern} (hc : c ∈ p.children) (hq : q ∈ c.nodes) :
    q ∈ p.nodes :=
  mem_nodes.2 (.inr ⟨c, hc, hq⟩)

theorem mem_nodes_trans {p q r : Pattern} (hq : q ∈ p.nodes) (hr : r ∈ q.nodes) : r ∈ p.nodes := by
  induction p using child_induction with
  | step p ih =>
    rcases mem_nodes.1 hq with rfl | ⟨c, hc, hq⟩
    · exact hr
    · exact mem_nodes_of_child hc (ih c hc hq)

theorem sizeOf_le_of_mem_nodes {p q : Pattern} (h : q ∈ p.nodes) : sizeOf q ≤ sizeOf p := by
  induction p using child_induction with
  | step p ih =>
    rcases mem_nodes.1 h with rfl | ⟨c, hc, hq⟩
    · exact Nat.le_refl _
    · exact Nat.le_trans (ih c hc hq) (Nat.le_of_lt (sizeOf_lt_of_mem_children hc))

/-- No node lies below itself. -/
theorem not_mem_nodes_child {p c : Pattern} (hc : c ∈ p.children) : p ∉ c.nodes := fun h =>
  absurd (sizeOf_le_of_mem_nodes h) (Nat.not_le.2 (sizeOf_lt_of_mem_children hc))

/-! ### Widths -/

theorem leastWidth_le {ps : List Pattern} {p : Pattern} (h : p ∈ ps) :
    leastWidth ps ≤ p.minWidth := by
  induction ps with
  | nil => cases h
  | cons a ps ih =>
    cases ps with
    | nil =>
      obtain rfl := List.mem_singleton.1 h
      exact Nat.le_refl _
    | cons b ps =>
      simp only [leastWidth]
      rcases List.mem_cons.1 h with rfl | h
      · exact Nat.min_le_left _ _
      · exact Nat.le_trans (Nat.min_le_right _ _) (ih h)

/-! ### Foreign values -/

theorem firstForeign?_eq_none {p : Pattern} :
    p.firstForeign? = none ↔ ∀ q ∈ p.nodes, q.foreign? = none := by
  rw [firstForeign?, List.findSome?_eq_none_iff]

theorem firstForeign?_of_mem_nodes {p q : Pattern} (h : p.firstForeign? = none) (hq : q ∈ p.nodes) :
    q.firstForeign? = none :=
  firstForeign?_eq_none.2 fun r hr => firstForeign?_eq_none.1 h r (mem_nodes_trans hq hr)

theorem firstForeign?_of_child {p c : Pattern} (h : p.firstForeign? = none)
    (hc : c ∈ p.children) : c.firstForeign? = none :=
  firstForeign?_of_mem_nodes h (mem_nodes_of_child hc (mem_nodes_self c))

theorem exists_label {p : Pattern} (h : p.firstForeign? = none) : ∃ l, p.label? = some l := by
  cases p with
  | foreign v => simp [firstForeign?, nodes, foreign?] at h
  | _ => exact ⟨_, rfl⟩

/-! ### Labels -/

theorem IsLabelled.eq_of_label? {p q r : Pattern} (h : p.IsLabelled) (hq : q ∈ p.nodes)
    (hr : r ∈ p.nodes) {l : Nat} (hlq : q.label? = some l) (hlr : r.label? = some l) : q = r :=
  h q hq r hr (by simp [hlq]) (hlq.trans hlr.symm)

/-- The label of a node is not in use below it. -/
theorem IsLabelled.label?_ne {p q c r : Pattern} (h : p.IsLabelled) (hq : q ∈ p.nodes)
    (hc : c ∈ q.children) (hr : r ∈ c.nodes) {l : Nat} (hl : q.label? = some l) :
    r.label? ≠ some l := by
  intro hlr
  have hrp := mem_nodes_trans hq (mem_nodes_of_child hc hr)
  obtain rfl := h.eq_of_label? hq hrp hl hlr
  exact not_mem_nodes_child hc hr

/-- A pattern is labelled if no label occurs twice. -/
theorem isLabelled_of_nodup {p : Pattern} (h : (p.nodes.filterMap label?).Nodup) :
    p.IsLabelled := by
  -- the induction is over any list of nodes, as the tail of the nodes of a pattern belongs to none
  have key : ∀ ps : List Pattern, (ps.filterMap label?).Nodup → ∀ q ∈ ps, ∀ r ∈ ps,
      q.label?.isSome → q.label? = r.label? → q = r := by
    intro ps
    induction ps with
    | nil => intro _ q hq; cases hq
    | cons a ps ih =>
      intro hnd q hq r hr hs hqr
      cases ha : a.label? with
      | none =>
        rw [List.filterMap_cons_none ha] at hnd
        have hne : ∀ s : Pattern, s.label?.isSome → s ≠ a := by
          rintro s hs rfl; simp [ha] at hs
        exact ih hnd q ((List.mem_cons.1 hq).resolve_left (hne q hs)) r
          ((List.mem_cons.1 hr).resolve_left (hne r (hqr ▸ hs))) hs hqr
      | some l =>
        rw [List.filterMap_cons_some ha, List.nodup_cons] at hnd
        have hne : ∀ s ∈ ps, s.label? ≠ some l := fun s hs hl =>
          hnd.1 (List.mem_filterMap.2 ⟨s, hs, hl⟩)
        rcases List.mem_cons.1 hq with hqa | hqs <;> rcases List.mem_cons.1 hr with hra | hrs
        · exact hqa.trans hra.symm
        · exact absurd (hqr.symm.trans (hqa ▸ ha)) (hne r hrs)
        · exact absurd (hqr.trans (hra ▸ ha)) (hne q hqs)
        · exact ih hnd.2 q hqs r hrs hs hqr
  exact key p.nodes h

/-! ### Numbering -/

/-- The labels that `numberAll` uses, if `number` uses a range of labels for each pattern. -/
theorem labels_numberAll_of {ps : List Pattern}
    (h : ∀ p ∈ ps, ∀ n, ∃ k, (p.number n).2 = n + k ∧
      (p.number n).1.nodes.filterMap label? = List.range' n k) (n : Nat) :
    ∃ k, (numberAll n ps).2 = n + k ∧
      (nodesOfAll (numberAll n ps).1).filterMap label? = List.range' n k := by
  induction ps generalizing n with
  | nil => exact ⟨0, rfl, rfl⟩
  | cons p ps ih =>
    obtain ⟨j, hnext, hlabels⟩ := h p List.mem_cons_self n
    obtain ⟨k, hnexts, hrest⟩ := ih (fun q hq => h q (List.mem_cons_of_mem _ hq)) (n + j)
    refine ⟨j + k, ?_, ?_⟩
    · rw [numberAll]
      show (numberAll (p.number n).2 ps).2 = n + (j + k)
      rw [hnext, hnexts, Nat.add_assoc]
    · -- the labels of the other patterns follow right behind those of the first one
      rw [numberAll]
      show ((p.number n).1.nodes ++ nodesOfAll (numberAll (p.number n).2 ps).1).filterMap label? = _
      rw [hnext, List.filterMap_append, hlabels, hrest, List.range'_append_1]

theorem labels_of_below {p : Pattern} {below : List Pattern} {n k : Nat}
    (hnodes : p.nodes = p :: below) (hlabel : p.label? = some n)
    (hbelow : below.filterMap label? = List.range' (n + 1) k) :
    p.nodes.filterMap label? = List.range' n (k + 1) := by
  rw [hnodes, List.filterMap_cons_some hlabel, hbelow, List.range'_succ]

/-- `number` uses the labels of a range, each of them for one node. -/
theorem labels_number (p : Pattern) (n : Nat) :
    ∃ k, (p.number n).2 = n + k ∧ (p.number n).1.nodes.filterMap label? = List.range' n k := by
  induction p using node_induction generalizing n with
  | word l literal optional => exact ⟨1, rfl, rfl⟩
  | wildcard l optional => exact ⟨1, rfl, rfl⟩
  | choice l options optional ih =>
    obtain ⟨k, hnext, hlabels⟩ := labels_numberAll_of (fun p hp => ih p hp) (n + 1)
    refine ⟨k + 1, ?_, labels_of_below rfl rfl hlabels⟩
    rw [number, hnext]
    omega
  | series l parts ih =>
    obtain ⟨k, hnext, hlabels⟩ := labels_numberAll_of (fun p hp => ih p hp) (n + 1)
    refine ⟨k + 1, ?_, labels_of_below rfl rfl hlabels⟩
    rw [number, hnext]
    omega
  | slot l name inner kind ih =>
    obtain ⟨k, hnext, hlabels⟩ := ih (n + 1)
    refine ⟨k + 1, ?_, labels_of_below rfl rfl hlabels⟩
    rw [number, hnext]
    omega
  | foreign v => exact ⟨0, rfl, rfl⟩

/-- Every pattern can be labelled. -/
theorem isLabelled_number (p : Pattern) (n : Nat) : (p.number n).1.IsLabelled := by
  obtain ⟨k, -, hlabels⟩ := labels_number p n
  refine isLabelled_of_nodup ?_
  rw [hlabels]
  exact List.nodup_range'

end IntentGrammar.Pattern

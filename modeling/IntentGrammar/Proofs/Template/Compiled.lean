import IntentGrammar.Proofs.Recognition
import IntentGrammar.Template.Compile

/-!
# Compiled phrases

What a phrase is like that was compiled with entity types declared by their surface forms.

Labels are handed out in ascending order, and only the patterns of the entity types stand in more
than one place.  `Pattern.Spread` says this of the nodes that are built between two labels: a node
is an old one, or its label is one of those handed out and names it alone.  Each way of building
puts such nodes side by side, so the body of a phrase is labelled whatever the template.

A part of the body is bare, that is without slots, or it is a slot around a wildcard or around the
choice between the surface forms of its type (`Item.IsPart`).

* `Entities.Lists.declareAll` : **a declared type is the choice between its surface forms**;
* `Template.exists_parts_of_compile` : **a compiled phrase is well formed, and what its parts are**.
-/

namespace IntentGrammar

namespace Pattern

/-! ### Labels -/

/-- Nodes of one label are the same. -/
def Agree (ns : List Pattern) : Prop :=
  ∀ q ∈ ns, ∀ r ∈ ns, ∀ l, q.label? = some l → r.label? = some l → q = r

/-- All labels are less than `n`. -/
def Below (n : Nat) (ns : List Pattern) : Prop := ∀ q ∈ ns, ∀ l, q.label? = some l → l < n

/-- The nodes are old ones, or they have labels from `lo` on and below `hi`, each its own. -/
structure Spread (old : List Pattern) (lo hi : Nat) (ns : List Pattern) : Prop where
  le : lo ≤ hi
  mem : ∀ q ∈ ns, q ∈ old ∨ ∀ l, q.label? = some l → lo ≤ l ∧ l < hi
  agree : ∀ q ∈ ns, ∀ r ∈ ns, ∀ l, lo ≤ l → q.label? = some l → r.label? = some l → q = r

theorem isLabelled_of_agree {p : Pattern} (h : Agree p.nodes) : p.IsLabelled := by
  intro q hq r hr hs heq
  obtain ⟨l, hl⟩ := Option.isSome_iff_exists.1 hs
  exact h q hq r hr l hl (heq ▸ hl)

theorem Agree.mono {ns ms : List Pattern} (h : Agree ms) (hsub : ns ⊆ ms) : Agree ns :=
  fun q hq r hr => h q (hsub hq) r (hsub hr)

theorem Below.mono {n : Nat} {ns ms : List Pattern} (h : Below n ms) (hsub : ns ⊆ ms) :
    Below n ns :=
  fun q hq => h q (hsub hq)

theorem Below.le {n m : Nat} {ns : List Pattern} (h : Below n ns) (hle : n ≤ m) : Below m ns :=
  fun q hq l hl => (h q hq l hl).trans_le hle

namespace Spread

variable {old ns ms : List Pattern} {a b c : Nat} {p : Pattern}

theorem nil : Spread old a a [] := ⟨le_rfl, by simp, by simp⟩

theorem of_subset (hold : Below a old) (h : ns ⊆ old) : Spread old a a ns where
  le := le_rfl
  mem _ hq := .inl (h hq)
  agree q hq _ _ l hl hql := absurd (hold q (h hq) l hql) (not_lt.2 hl)

theorem single (h : p.label? = some a) : Spread old a (a + 1) [p] where
  le := Nat.le_succ a
  mem := by simp [h]
  agree := by simp

theorem number (p : Pattern) (n : Nat) : Spread old n (p.number n).2 (p.number n).1.nodes := by
  obtain ⟨k, hnext, hlabels⟩ := labels_number p n
  refine ⟨hnext ▸ Nat.le_add_right n k, fun q hq => .inr fun l hl => ?_, ?_⟩
  · have hmem : l ∈ (p.number n).1.nodes.filterMap label? := List.mem_filterMap.2 ⟨q, hq, hl⟩
    rw [hlabels, List.mem_range'_1] at hmem
    rwa [hnext]
  · intro q hq r hr l _ hql hrl
    exact (isLabelled_number p n).eq_of_label? hq hr hql hrl

/-- Nodes that are built one after the other. -/
theorem append (hold : Below a old) (h : Spread old a b ns) (h' : Spread old b c ms) :
    Spread old a c (ns ++ ms) where
  le := h.le.trans h'.le
  mem q hq := by
    rcases List.mem_append.1 hq with hq | hq
    · exact (h.mem q hq).imp_right fun hlabel l hl =>
        ⟨(hlabel l hl).1, (hlabel l hl).2.trans_le h'.le⟩
    · exact (h'.mem q hq).imp_right fun hlabel l hl =>
        ⟨h.le.trans (hlabel l hl).1, (hlabel l hl).2⟩
  agree := by
    -- a label that was handed out is in use on one of the two sides only
    have hleft : ∀ q ∈ ns, ∀ l, a ≤ l → q.label? = some l → l < b := fun q hq l hl hql =>
      (h.mem q hq).elim (fun hq => absurd (hold q hq l hql) (not_lt.2 hl)) fun hlabel =>
        (hlabel l hql).2
    have hright : ∀ q ∈ ms, ∀ l, a ≤ l → q.label? = some l → b ≤ l := fun q hq l hl hql =>
      (h'.mem q hq).elim (fun hq => absurd (hold q hq l hql) (not_lt.2 hl)) fun hlabel =>
        (hlabel l hql).1
    intro q hq r hr l hl hql hrl
    rcases List.mem_append.1 hq with hq | hq <;> rcases List.mem_append.1 hr with hr | hr
    · exact h.agree q hq r hr l hl hql hrl
    · exact absurd (hleft q hq l hl hql) (not_lt.2 (hright r hr l hl hrl))
    · exact absurd (hleft r hr l hl hrl) (not_lt.2 (hright q hq l hl hql))
    · exact h'.agree q hq r hr l (hright q hq l hl hql) hql hrl

theorem cons (hold : Below a old) (hp : p.label? = some a) (h : Spread old (a + 1) b ns) :
    Spread old a b (p :: ns) :=
  append hold (single hp) h

theorem below (hold : Below a old) (h : Spread old a b ns) : Below b (old ++ ns) := by
  intro q hq l hl
  have hlt : q ∈ old → l < b := fun hq => (hold q hq l hl).trans_le h.le
  rcases List.mem_append.1 hq with hq | hq
  · exact hlt hq
  · exact (h.mem q hq).elim hlt fun hlabel => (hlabel l hl).2

theorem agree_append (hagree : Agree old) (hold : Below a old) (h : Spread old a b ns) :
    Agree (old ++ ns) := by
  have hin : ∀ q ∈ ns, ∀ l, l < a → q.label? = some l → q ∈ old := fun q hq l hl hql =>
    (h.mem q hq).resolve_right fun hlabel => absurd (hlabel l hql).1 (not_le.2 hl)
  intro q hq r hr l hql hrl
  by_cases hl : l < a
  · have hmem : ∀ s ∈ old ++ ns, s.label? = some l → s ∈ old := fun s hs hsl =>
      (List.mem_append.1 hs).elim id fun hs => hin s hs l hl hsl
    exact hagree q (hmem q hq hql) r (hmem r hr hrl) l hql hrl
  · have hmem : ∀ s ∈ old ++ ns, s.label? = some l → s ∈ ns := fun s hs hsl =>
      (List.mem_append.1 hs).elim (fun hs => absurd (hold s hs l hsl) hl) id
    exact h.agree q (hmem q hq hql) r (hmem r hr hrl) l (not_lt.1 hl) hql hrl

end Spread

end Pattern

open Pattern

/-! ### Labels of entity types -/

namespace Entities

variable {E E' : Entities} {old : List Pattern} {next : Nat}

/-- The nodes of all types. -/
def nodes (E : Entities) : List Pattern := E.table.flatMap (·.2.nodes)

/-- No label from `next` on is in use, and those in use tell the nodes apart. -/
structure IsLabelled (E : Entities) : Prop where
  below : Below E.next E.nodes
  agree : Agree E.nodes

theorem nodes_subset {kind : String} {p : Pattern} (h : E.table.get? kind = some p) :
    p.nodes ⊆ E.nodes := fun _ hq =>
  List.mem_flatMap.2 ⟨_, Table.mem_of_get? h, hq⟩

/-- A type whose nodes got labels of their own. -/
theorem IsLabelled.put (h : E.IsLabelled) {name : String} {p : Pattern}
    (hp : Spread E.nodes E.next next p.nodes) : IsLabelled ⟨E.table.put name p, next⟩ := by
  have hsub : nodes ⟨E.table.put name p, next⟩ ⊆ E.nodes ++ p.nodes := by
    intro q hq
    obtain ⟨e, he, hq⟩ := List.mem_flatMap.1 hq
    rcases Table.mem_of_mem_put he with rfl | he
    · exact List.mem_append_right _ hq
    · exact List.mem_append_left _ (List.mem_flatMap.2 ⟨e, he, hq⟩)
  exact ⟨(hp.below h.below).mono hsub, (hp.agree_append h.agree h.below).mono hsub⟩

theorem isLabelled_none : none.IsLabelled :=
  ⟨by simp [Below, nodes, none], by simp [Agree, nodes, none]⟩

/-- The types are patterns, and their labels tell their nodes apart. -/
structure Usable (E : Entities) : Prop where
  isLabelled : E.IsLabelled
  firstForeign?_eq : ∀ kind p, E.table.get? kind = some p → p.firstForeign? = Option.none

theorem usable_none : none.Usable := ⟨isLabelled_none, by simp [none, Table.get?]⟩

end Entities

/-! ### Bare patterns -/

namespace Pattern

/-- Neither a slot nor a foreign value stands in the pattern. -/
def Bare (p : Pattern) : Prop := ∀ q ∈ p.nodes, q.slotName? = none ∧ q.foreign? = none

theorem bare_word (l : Nat) (literal : String) (optional : Bool) :
    (word l literal optional).Bare := by
  simp [Bare, nodes, slotName?, foreign?]

theorem bare_wildcard (l : Nat) (optional : Bool) : (wildcard l optional).Bare := by
  simp [Bare, nodes, slotName?, foreign?]

theorem bare_of_children {p : Pattern} (hname : p.slotName? = none) (hforeign : p.foreign? = none)
    (h : ∀ c ∈ p.children, c.Bare) : p.Bare := by
  intro q hq
  rcases mem_nodes.1 hq with rfl | ⟨c, hc, hq⟩
  · exact ⟨hname, hforeign⟩
  · exact h c hc q hq

theorem bare_choice {options : List Pattern} (h : ∀ p ∈ options, p.Bare) (l : Nat)
    (optional : Bool) : (choice l options optional).Bare :=
  bare_of_children rfl rfl h

theorem bare_series {parts : List Pattern} (h : ∀ p ∈ parts, p.Bare) (l : Nat) :
    (series l parts).Bare :=
  bare_of_children rfl rfl h

theorem Bare.child {p c : Pattern} (h : p.Bare) (hc : c ∈ p.children) : c.Bare := fun q hq =>
  h q (mem_nodes_of_child hc hq)

theorem Bare.firstForeign?_eq {p : Pattern} (h : p.Bare) : p.firstForeign? = none :=
  firstForeign?_eq_none.2 fun q hq => (h q hq).2

theorem foreign?_of_label? {p : Pattern} {l : Nat} (h : p.label? = some l) : p.foreign? = none := by
  cases p with
  | foreign v => cases h
  | _ => rfl

theorem firstForeign?_of_children {p : Pattern} (hforeign : p.foreign? = none)
    (h : ∀ c ∈ p.children, c.firstForeign? = none) : p.firstForeign? = none := by
  rw [firstForeign?_eq_none]
  intro q hq
  rcases mem_nodes.1 hq with rfl | ⟨c, hc, hq⟩
  · exact hforeign
  · exact firstForeign?_eq_none.1 (h c hc) q hq

theorem nodes_optionally_subset (p : Pattern) (l : Nat) :
    ∃ ns, (p.optionally l).nodes = p.optionally l :: ns ∧ (p.optionally l).label? = some l ∧
      ns ⊆ p.nodes := by
  cases p with
  | word | wildcard => exact ⟨[], rfl, rfl, by simp⟩
  | choice l' options optional => exact ⟨_, rfl, rfl, by simp [nodes]⟩
  | series | slot | foreign => exact ⟨_, rfl, rfl, by simp [nodesOfAll]⟩

theorem firstForeign?_optionally {p : Pattern} (h : p.firstForeign? = none) (l : Nat) :
    (p.optionally l).firstForeign? = none := by
  obtain ⟨ns, hnodes, hlabel, hsub⟩ := nodes_optionally_subset p l
  rw [firstForeign?_eq_none, hnodes]
  intro q hq
  rcases List.mem_cons.1 hq with rfl | hq
  · exact foreign?_of_label? hlabel
  · exact firstForeign?_eq_none.1 h q (hsub hq)

end Pattern

/-! ### Surface forms -/

theorem exists_left_of_forall₂ {α β : Type} {R : α → β → Prop} {xs : List α} {ys : List β} {y : β}
    (h : List.Forall₂ R xs ys) (hy : y ∈ ys) : ∃ x ∈ xs, R x y := by
  induction h with
  | nil => cases hy
  | cons hxy _ ih =>
    rcases List.mem_cons.1 hy with rfl | hy
    · exact ⟨_, List.mem_cons_self, hxy⟩
    · obtain ⟨x, hx, hxy⟩ := ih hy
      exact ⟨x, List.mem_cons_of_mem _ hx, hxy⟩

namespace Pattern

/-- The pattern is a word of a surface form. -/
def IsWord (w : Token) (p : Pattern) : Prop := ∃ l, p = .word l w.typed false

/-- The pattern is the words of a surface form in a row. -/
def IsRow (words : List Token) (p : Pattern) : Prop :=
  ∃ parts, List.Forall₂ IsWord words parts ∧ parts ≠ [] ∧ (parts = [p] ∨ ∃ l, p = .series l parts)

theorem IsRow.bare {words : List Token} {p : Pattern} (h : p.IsRow words) : p.Bare := by
  obtain ⟨parts, hwords, -, hp⟩ := h
  have hparts : ∀ q ∈ parts, q.Bare := by
    clear hp
    induction hwords with
    | nil => simp
    | cons hw _ ih =>
      obtain ⟨l, rfl⟩ := hw
      exact List.forall_mem_cons.2 ⟨bare_word _ _ _, ih⟩
  rcases hp with rfl | ⟨l, rfl⟩
  · exact hparts p List.mem_cons_self
  · exact bare_series hparts l

theorem forall₂_numberAll_words (next : Nat) (words : List Token) :
    List.Forall₂ IsWord words (numberAll next (words.map (.word 0 ·.typed false))).1 := by
  induction words generalizing next with
  | nil => exact .nil
  | cons w words ih => exact .cons ⟨next, rfl⟩ (ih (next + 1))

end Pattern

namespace Entities

variable {E E' : Entities} {next : Nat}

theorem isRow_of_ofForm {form : String} {p : Pattern} {next' : Nat}
    (h : ofForm next form = .ok (p, next')) :
    p.IsRow (Token.tokenize form) ∧ ∀ old, Spread old next next' p.nodes := by
  rw [ofForm] at h
  match hwords : Token.tokenize form with
  | [] => rw [hwords] at h; cases h
  | [w] =>
    rw [hwords] at h
    obtain ⟨rfl, rfl⟩ := Prod.ext_iff.1 (Except.ok.inj h)
    exact ⟨⟨_, .cons ⟨next, rfl⟩ .nil, by simp, .inl rfl⟩, fun _ => Spread.number _ next⟩
  | w :: w' :: ws =>
    rw [hwords] at h
    obtain ⟨rfl, rfl⟩ := Prod.ext_iff.1 (Except.ok.inj h)
    refine ⟨⟨_, forall₂_numberAll_words (next + 1) (w :: w' :: ws), ?_, .inr ⟨next, rfl⟩⟩,
      fun _ => Spread.number _ next⟩
    simp [numberAll]

/-- The value is a text, and the pattern is its words in a row. -/
def IsForm (v : Value) (p : Pattern) : Prop :=
  ∃ form, v.asText = .ok form ∧ p.IsRow (Token.tokenize form)

theorem forms_of_ofForms {old : List Pattern} {vs : List Value} {ps : List Pattern} {next' : Nat}
    (hold : Below next old) (h : ofForms next vs = .ok (ps, next')) :
    List.Forall₂ IsForm vs ps ∧ Spread old next next' (nodesOfAll ps) := by
  induction vs generalizing next ps next' with
  | nil =>
    obtain ⟨rfl, rfl⟩ := Prod.ext_iff.1 (Except.ok.inj h)
    exact ⟨.nil, .nil⟩
  | cons v vs ih =>
    rw [ofForms] at h
    split at h
    · cases h
    · next form hform =>
      split at h
      · cases h
      · next p free hp =>
        cases hps : ofForms free vs with
        | error f => rw [hps] at h; cases h
        | ok found =>
          rw [hps] at h
          obtain ⟨rfl, rfl⟩ := Prod.ext_iff.1 (Except.ok.inj h)
          obtain ⟨hrow, hspread⟩ := isRow_of_ofForm hp
          obtain ⟨hforms, hrest⟩ := ih (hold.le (hspread old).le) hps
          exact ⟨.cons ⟨form, hform, hrow⟩ hforms, (hspread old).append hold hrest⟩

/-- The pattern is the choice between the surface forms. -/
def IsType (forms : Value) (optional : Bool) (p : Pattern) : Prop :=
  ∃ vs l options, forms.elements? = some vs ∧ p = .choice l options optional ∧
    List.Forall₂ IsForm vs options

theorem IsType.bare {forms : Value} {optional : Bool} {p : Pattern} (h : IsType forms optional p) :
    p.Bare := by
  obtain ⟨vs, l, options, -, rfl, hforms⟩ := h
  refine bare_choice (fun p hp => ?_) l optional
  obtain ⟨v, -, form, -, hrow⟩ := exists_left_of_forall₂ hforms hp
  exact hrow.bare

/-- What a declaration does: it puts the choice between the forms into the table. -/
theorem declare_cases {name : String} {forms : Value} (hE : E.IsLabelled)
    (h : E.declare name forms = .ok E') :
    ∃ p, IsType forms false p ∧ E'.table = E.table.put name p ∧ E'.IsLabelled := by
  unfold declare at h
  split at h
  · cases h
  · cases h
  · next vs _ hvs =>
    cases hps : ofForms (E.next + 1) vs with
    | error f => rw [hps] at h; cases h
    | ok found =>
      rw [hps] at h
      obtain ⟨ps, free⟩ := found
      cases Except.ok.inj h
      obtain ⟨hforms, hspread⟩ := forms_of_ofForms (hE.below.le (Nat.le_succ _)) hps
      exact ⟨_, ⟨vs, _, _, hvs, rfl, hforms⟩, rfl, hE.put (.cons hE.below rfl hspread)⟩

/-- The types are those of a listing of surface forms. -/
structure Lists (E : Entities) (types : Table Value) : Prop where
  isLabelled : E.IsLabelled
  isType : ∀ kind p, E.table.get? kind = some p →
    ∃ forms, types.get? kind = some forms ∧ IsType forms false p

theorem Lists.usable {types : Table Value} (hE : E.Lists types) : E.Usable where
  isLabelled := hE.isLabelled
  firstForeign?_eq kind p hp := by
    obtain ⟨forms, -, htype⟩ := hE.isType kind p hp
    exact htype.bare.firstForeign?_eq

theorem lists_none : none.Lists [] := ⟨isLabelled_none, by simp [none, Table.get?]⟩

theorem Lists.declare {types : Table Value} {name : String} {forms : Value} (hE : E.Lists types)
    (h : E.declare name forms = .ok E') : E'.Lists (types.put name forms) := by
  obtain ⟨p, hp, htable, hlabelled⟩ := declare_cases hE.isLabelled h
  refine ⟨hlabelled, fun kind q hq => ?_⟩
  rw [htable, Table.get?_put] at hq
  rw [Table.get?_put]
  split at hq
  · next heq =>
    cases Option.some.inj hq
    exact ⟨forms, if_pos heq, hp⟩
  · next hne =>
    rw [if_neg hne]
    exact hE.isType kind q hq

/-- **What a declaration of types comes to**: a table of the types, each a choice between its
surface forms. -/
theorem Lists.declareAll {types : Table Value} {more : List (String × Value)} (hE : E.Lists types)
    (h : E.declareAll more = .ok E') : E'.Lists (types.putAll more) := by
  induction more generalizing E types with
  | nil =>
    cases Except.ok.inj h
    exact hE
  | cons e more ih =>
    rw [Entities.declareAll, List.foldlM_cons] at h
    cases he : E.declare e.1 e.2 with
    | error f => rw [he] at h; cases h
    | ok E₁ =>
      rw [he] at h
      exact ih (hE.declare he) h

end Entities

namespace Template

/-! ### Items -/

namespace Item

/-- A typed slot has the pattern that the table gives its type. -/
def DrawsOn (entities : Table Pattern) : Item → Prop
  | .slot _ _ (some (kind, p)) => entities.get? kind = some p
  | _ => True

variable {entities : Table Pattern} {g : Glyph} {gs left : List Glyph} {item : Item}

theorem exists_of_map_eq_ok {ε α β : Type} {r : Except ε α} {f : α → β} {b : β}
    (h : r.map f = .ok b) : ∃ a, r = .ok a ∧ f a = b := by
  cases r with
  | error e => cases h
  | ok a => exact ⟨a, rfl, Except.ok.inj h⟩

/-- A group that can be read has the options between the bars, the empty ones left out. -/
theorem readGroup_eq_ok {b : Block} (h : readGroup g b = .ok item) :
    ∃ options, (b.inside.splitOnP (·.char == '|')).mapM Atom.readRun = .ok options ∧
      item = .group (options.filter (!·.isEmpty))
        (options.any List.isEmpty || (takeMark b.rest).1) := by
  rw [readGroup] at h
  cases hrefuse : refuse [.round, .square] g b.inside with
  | error f =>
    rw [hrefuse] at h
    cases h
  | ok u =>
    rw [hrefuse] at h
    obtain ⟨options, hoptions, rfl⟩ := exists_of_map_eq_ok h
    exact ⟨options, hoptions, rfl⟩

/-- A slot that can be read has a type only if the table has it. -/
theorem readSlot_eq_ok {b : Block} (h : readSlot entities g b = .ok item) :
    ∃ name optional entity, item = .slot name optional entity ∧
      ∀ e ∈ entity, entities.get? e.1 = some e.2 := by
  unfold readSlot at h
  cases hrefuse : refuse [.round, .square, .curly] g b.inside with
  | error f =>
    rw [hrefuse] at h
    cases h
  | ok u =>
    rw [hrefuse] at h
    simp only [bind, Except.bind] at h
    split at h
    · cases h
    · split at h
      · cases h
        exact ⟨_, _, none, rfl, fun e he => absurd he (Option.not_mem_none e)⟩
      · split at h
        · next hget =>
          cases h
          refine ⟨_, _, some _, rfl, fun e he => ?_⟩
          cases he
          exact hget
        · cases h

theorem drawsOn_of_read (h : read entities g gs = .ok (item, left)) : item.DrawsOn entities := by
  obtain ⟨-, hread⟩ | ⟨kind, f, -, -, hread⟩ | ⟨kind, b, -, -, -, hread⟩ | ⟨b, -, -, -, hread⟩ |
    ⟨b, -, -, hread⟩ := read_cases entities g gs
  · obtain ⟨a, -, heq⟩ := exists_of_map_eq_ok (hread.symm.trans h)
    cases heq
    trivial
  · cases hread.symm.trans h
  · obtain ⟨es, -, heq⟩ := exists_of_map_eq_ok (hread.symm.trans h)
    cases heq
    trivial
  · obtain ⟨item', hslot, heq⟩ := exists_of_map_eq_ok (hread.symm.trans h)
    cases heq
    obtain ⟨name, optional, entity, rfl, hentity⟩ := readSlot_eq_ok hslot
    cases entity with
    | none => trivial
    | some e => exact hentity e rfl
  · obtain ⟨item', hgroup, heq⟩ := exists_of_map_eq_ok (hread.symm.trans h)
    cases heq
    obtain ⟨options, -, rfl⟩ := readGroup_eq_ok hgroup
    trivial

theorem drawsOn_of_readAll {items : List Item} (h : readAll entities gs = .ok items) :
    ∀ item ∈ items, item.DrawsOn entities := by
  fun_induction readAll entities gs generalizing items with
  | case1 => cases Except.ok.inj h; simp
  | case2 => cases h
  | case3 gs g rest hgs item left hr ih =>
    obtain ⟨items', hitems, rfl⟩ := exists_of_map_eq_ok h
    exact List.forall_mem_cons.2 ⟨drawsOn_of_read hr, ih hitems⟩

end Item

/-! ### Building -/

namespace Atom

variable {old : List Pattern} {next : Nat}

theorem bare_build (next : Nat) (a : Atom) : (a.build next).1.Bare := by
  cases a with
  | word => exact bare_word _ _ _
  | wildcard => exact bare_wildcard _ _
  | variants => exact bare_choice (by simp [bare_word]) _ _

theorem bare_of_mem_buildAll (next : Nat) (as : List Atom) :
    ∀ p ∈ (buildAll next as).1, p.Bare := by
  induction as generalizing next with
  | nil => exact fun _ h => absurd h List.not_mem_nil
  | cons a as ih => exact List.forall_mem_cons.2 ⟨bare_build next a, ih _⟩

theorem bare_buildOption (next : Nat) (as : List Atom) : (buildOption next as).1.Bare := by
  match as with
  | [a] => exact bare_build next a
  | [] => exact bare_series (by simp) next
  | a :: b :: as =>
    exact bare_series (bare_of_mem_buildAll (next + 1) (a :: b :: as)) next

theorem bare_of_mem_buildOptions (next : Nat) (options : List (List Atom)) :
    ∀ p ∈ (buildOptions next options).1, p.Bare := by
  induction options generalizing next with
  | nil => exact fun _ h => absurd h List.not_mem_nil
  | cons o options ih => exact List.forall_mem_cons.2 ⟨bare_buildOption next o, ih _⟩

theorem spread_build (hold : Below next old) (a : Atom) :
    Spread old next (a.build next).2 (a.build next).1.nodes := by
  cases a with
  | word | wildcard => exact .single rfl
  | variants short long optional =>
    exact .cons hold rfl (.cons (hold.le (Nat.le_succ next)) rfl (.single rfl))

theorem spread_buildAll (hold : Below next old) (as : List Atom) :
    Spread old next (buildAll next as).2 (nodesOfAll (buildAll next as).1) := by
  induction as generalizing next with
  | nil => exact .nil
  | cons a as ih =>
    have ha := spread_build hold a
    exact ha.append hold (ih (hold.le ha.le))

theorem spread_buildOption (hold : Below next old) (as : List Atom) :
    Spread old next (buildOption next as).2 (buildOption next as).1.nodes := by
  match as with
  | [a] => exact spread_build hold a
  | [] => exact .cons hold rfl .nil
  | a :: b :: as =>
    exact .cons hold rfl (spread_buildAll (hold.le (Nat.le_succ next)) (a :: b :: as))

theorem spread_buildOptions (hold : Below next old) (options : List (List Atom)) :
    Spread old next (buildOptions next options).2 (nodesOfAll (buildOptions next options).1) := by
  induction options generalizing next with
  | nil => exact .nil
  | cons o options ih =>
    have ho := spread_buildOption hold o
    exact ho.append hold (ih (hold.le ho.le))

end Atom

namespace Item

variable {next : Nat} {E : Entities} {items : List Item}

theorem spread_buildSlot (hold : Below next E.nodes) (name : String) (optional : Bool)
    {entity : Option (String × Pattern)} (h : (slot name optional entity).DrawsOn E.table) :
    Spread E.nodes next (buildSlot next name optional entity).2
      (buildSlot next name optional entity).1.nodes := by
  match entity, optional with
  | none, _ => exact .cons hold rfl (.single rfl)
  | some (kind, p), true =>
    obtain ⟨ns, hnodes, hlabel, hsub⟩ := nodes_optionally_subset p (next + 1)
    refine .cons hold rfl ?_
    rw [hnodes]
    exact .cons (hold.le (Nat.le_succ next)) hlabel
      (.of_subset (hold.le (by omega)) (List.Subset.trans hsub (Entities.nodes_subset h)))
  | some (kind, p), false =>
    exact .cons hold rfl (.of_subset (hold.le (Nat.le_succ next)) (Entities.nodes_subset h))

/-- The nodes of a body are those of entity types, or their labels are new. -/
theorem spread_buildAll (hold : Below next E.nodes) (h : ∀ item ∈ items, item.DrawsOn E.table) :
    Spread E.nodes next (buildAll next items).2 (nodesOfAll (buildAll next items).1) := by
  induction items generalizing next with
  | nil => exact .nil
  | cons item items ih =>
    obtain ⟨hitem, hitems⟩ := List.forall_mem_cons.1 h
    cases item with
    | tags es => exact ih hold hitems
    | atom a =>
      have ha := Atom.spread_build hold a
      exact ha.append hold (ih (hold.le ha.le) hitems)
    | group options optional =>
      have ho := Atom.spread_buildOptions (hold.le (Nat.le_succ next)) options
      exact .append hold (.cons hold rfl ho) (ih (hold.le ((Nat.le_succ _).trans ho.le)) hitems)
    | slot name optional entity =>
      have hs := spread_buildSlot hold name optional hitem
      exact hs.append hold (ih (hold.le hs.le) hitems)

/-- Each part of a body is built from one item. -/
theorem exists_item_of_mem_buildAll {p : Pattern} (h : p ∈ (buildAll next items).1) :
    ∃ item ∈ items, ∃ n, (buildAll n [item]).1 = [p] := by
  induction items generalizing next with
  | nil => cases h
  | cons item items ih =>
    have htail {n : Nat} (h : p ∈ (buildAll n items).1) :
        ∃ item' ∈ item :: items, ∃ n, (buildAll n [item']).1 = [p] := by
      obtain ⟨item', hitem, hbuilt⟩ := ih h
      exact ⟨item', List.mem_cons_of_mem _ hitem, hbuilt⟩
    cases item with
    | tags es => exact htail h
    | _ =>
      rcases List.mem_cons.1 h with rfl | h
      · exact ⟨_, List.mem_cons_self, next, rfl⟩
      · exact htail h

theorem firstForeign?_of_mem_buildAll (hE : E.Usable) (h : ∀ item ∈ items, item.DrawsOn E.table)
    {p : Pattern} (hp : p ∈ (buildAll next items).1) : p.firstForeign? = none := by
  obtain ⟨item, hitem, n, hbuilt⟩ := exists_item_of_mem_buildAll hp
  match item, h item hitem with
  | .tags es, _ => cases hbuilt
  | .atom a, _ => exact List.singleton_inj.1 hbuilt ▸ (Atom.bare_build n a).firstForeign?_eq
  | .group options optional, _ =>
    rw [← List.singleton_inj.1 hbuilt]
    exact (bare_choice (Atom.bare_of_mem_buildOptions _ _) _ _).firstForeign?_eq
  | .slot name optional none, _ =>
    rw [← List.singleton_inj.1 hbuilt]
    rfl
  | .slot name optional (some (kind, q)), hget =>
    have hq := hE.firstForeign?_eq kind q hget
    rw [← List.singleton_inj.1 hbuilt]
    cases optional with
    | true =>
      exact firstForeign?_of_children rfl (List.forall_mem_singleton.2 (firstForeign?_optionally hq _))
    | false => exact firstForeign?_of_children rfl (List.forall_mem_singleton.2 hq)

/-- What stands in a slot: a wildcard, or the choice between the surface forms of its type. -/
def Fills (types : Table Value) (optional : Bool) (inner : Pattern) : Option String → Prop
  | none => ∃ l, inner = .wildcard l optional
  | some kind => ∃ forms, types.get? kind = some forms ∧ Entities.IsType forms optional inner

/-- A part of a compiled body: a bare pattern, or a slot. -/
def IsPart (types : Table Value) (p : Pattern) : Prop :=
  p.Bare ∨ ∃ l name inner kind, p = .slot l name inner kind ∧ Fills types p.isOptional inner kind

theorem Fills.bare {types : Table Value} {optional : Bool} {inner : Pattern} {kind : Option String}
    (h : Fills types optional inner kind) : inner.Bare := by
  cases kind with
  | none =>
    obtain ⟨l, rfl⟩ := h
    exact bare_wildcard l optional
  | some kind =>
    obtain ⟨forms, -, htype⟩ := h
    exact htype.bare

theorem isPart_of_mem_buildAll {types : Table Value} (hE : E.Lists types)
    (h : ∀ item ∈ items, item.DrawsOn E.table) {p : Pattern} (hp : p ∈ (buildAll next items).1) :
    IsPart types p := by
  obtain ⟨item, hitem, n, hbuilt⟩ := exists_item_of_mem_buildAll hp
  match item, h item hitem with
  | .tags es, _ => cases hbuilt
  | .atom a, _ => exact .inl (List.singleton_inj.1 hbuilt ▸ Atom.bare_build n a)
  | .group options optional, _ =>
    rw [← List.singleton_inj.1 hbuilt]
    exact .inl (bare_choice (Atom.bare_of_mem_buildOptions _ _) _ _)
  | .slot name optional none, _ =>
    rw [← List.singleton_inj.1 hbuilt]
    exact .inr ⟨_, _, _, _, rfl, _, rfl⟩
  | .slot name optional (some (kind, q)), hget =>
    -- a type is a choice, which can carry the mark of an optional slot
    obtain ⟨forms, hforms, vs, l, options, hvs, rfl, hall⟩ := hE.isType kind q hget
    rw [← List.singleton_inj.1 hbuilt]
    cases optional with
    | true => exact .inr ⟨_, _, _, _, rfl, forms, hforms, vs, _, options, hvs, rfl, hall⟩
    | false => exact .inr ⟨_, _, _, _, rfl, forms, hforms, vs, _, options, hvs, rfl, hall⟩

end Item

/-! ### Phrases -/

variable {E : Entities} {types : Table Value} {intent : Option String} {template : String}
  {P : Phrase}

/-- What a compiled phrase is made of. -/
theorem wellFormed_of_items (hE : E.Usable) {items : List Item}
    (hdraws : ∀ item ∈ items, item.DrawsOn E.table) :
    (assemble E intent template items).WellFormed (Item.buildAll (E.next + 1) items).1 where
  body_eq := ⟨_, rfl⟩
  isLabelled := by
    have hlabelled := hE.isLabelled
    have hspread := Item.spread_buildAll (hlabelled.below.le (Nat.le_succ _)) hdraws
    exact isLabelled_of_agree (Agree.mono (Spread.agree_append hlabelled.agree hlabelled.below
      (.cons hlabelled.below rfl hspread)) (List.subset_append_right _ _))
  firstForeign?_eq := firstForeign?_of_children rfl fun _ =>
    Item.firstForeign?_of_mem_buildAll hE hdraws

theorem wellFormed_of_compile (hE : E.Usable) (h : compile E intent template = .ok P) :
    ∃ parts, P.WellFormed parts := by
  obtain ⟨items, hitems, rfl⟩ := Item.exists_of_map_eq_ok h
  exact ⟨_, wellFormed_of_items hE (Item.drawsOn_of_readAll hitems)⟩

/-- The parts of the body of a compiled phrase. -/
theorem exists_parts_of_compile (hE : E.Lists types) (h : compile E intent template = .ok P) :
    ∃ parts, P.WellFormed parts ∧ ∀ p ∈ parts, Item.IsPart types p := by
  obtain ⟨items, hitems, rfl⟩ := Item.exists_of_map_eq_ok h
  have hdraws := Item.drawsOn_of_readAll hitems
  exact ⟨_, wellFormed_of_items hE.usable hdraws, fun p => Item.isPart_of_mem_buildAll hE hdraws⟩

end Template

end IntentGrammar

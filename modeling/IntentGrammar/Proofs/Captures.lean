import IntentGrammar.Proofs.Template.Compiled

/-!
# What slots capture

The spans that are recorded when a compiled phrase recognises an utterance, and what the slots stand
for.  An alignment of the body goes through the slots from left to right, each of them takes a run
of its own (`Utterance.TakesAll.exists_slots`), and a slot that may not be left out takes a token at
least.  A run that a typed slot takes reads as a surface form of its type: the words of the form
stand in it in order, the first and the last of them at its edges, and whatever else stands in it
are stopwords (`Utterance.ReadsAs`).

* `Phrase.slots_exact` : **which slots there are, which spans they stand for, and what these read.**
-/

namespace IntentGrammar

/-- The entity type that a slot draws on. -/
def Pattern.slotKind? : Pattern → Option String
  | .slot _ _ _ kind => kind
  | _ => none

namespace Utterance

open Pattern

/-- The tokens from `start` up to, but not including, `stop` read as some words: each word is read
at a place of its own, in order, the first one at the start and the last one right before the stop,
and the tokens at all other places are stopwords. -/
structure ReadsAs (U : Utterance) (words : List Token) (start stop : Nat) (places : List Nat) :
    Prop where
  reads : List.Forall₂
    (fun w i => ∃ t, U.tokens[i]? = some t ∧ U.lexicon.equivalent t.folded w.folded = true)
    words places
  ascending : places.Pairwise (· < ·)
  head : places.head? = some start
  last : places.getLast? = some (stop - 1)
  stops : ∀ i, start ≤ i → i < stop → i ∉ places → U.isStop i = true

/-- The tokens from `start` up to, but not including, `stop` read as one of the surface forms that
are listed for a type. -/
def ReadsForm (U : Utterance) (types : Table Value) (kind : String) (start stop : Nat) : Prop :=
  ∃ forms vs v form places, types.get? kind = some forms ∧ forms.elements? = some vs ∧ v ∈ vs ∧
    v.asText = .ok form ∧ U.ReadsAs (Token.tokenize form) start stop places

variable {U : Utterance} {R : OptionRule} {types : Table Value}

/-! ### Surface forms -/

/-- The words of a form in a row stand each at its place, with stopwords between them. -/
theorem TakesAll.exists_places {words : List Token} {parts : List Pattern}
    (hwords : List.Forall₂ IsWord words parts) {lead : Bool} {s e : Nat} {o : Outcome}
    (h : U.TakesAll R lead parts s e o) :
    ∃ places, List.Forall₂ (fun w i => U.reads i (Pattern.key w.typed) = true) words places ∧
      places.Pairwise (· < ·) ∧ (∀ i ∈ places, s ≤ i ∧ i < e) ∧
      (∀ i, s ≤ i → i < e → i ∉ places → U.isStop i = true) ∧
      e = (places.getLast?.map (· + 1)).getD s ∧
      (lead = false → words ≠ [] → places.head? = some s) := by
  induction hwords generalizing lead s e o with
  | nil =>
    obtain ⟨rfl, -⟩ := takesAll_nil.1 h
    exact ⟨[], .nil, .nil, by simp, fun i hs he => absurd hs (not_le.2 he), rfl, by simp⟩
  | @cons w p words parts hw hwords ih =>
    obtain ⟨l, rfl⟩ := hw
    obtain ⟨n, m, a, b, hlead, hstop, hp, hall, -⟩ := takesAll_cons.1 h
    obtain ⟨hread, rfl, -⟩ := (takes_word.1 hp).resolve_right (by simp)
    obtain ⟨places, hreads, hasc, hin, hstops, he, -⟩ := ih hall
    have hle := hall.totalWidth_le
    refine ⟨(s + n) :: places, .cons hread hreads, ?_, ?_, fun i hs hi hnot => ?_, ?_, ?_⟩
    · exact List.pairwise_cons.2 ⟨fun i hi => (hin i hi).1, hasc⟩
    · exact List.forall_mem_cons.2 ⟨by omega, fun i hi => by have := hin i hi; omega⟩
    · rw [List.mem_cons, not_or] at hnot
      rcases Nat.lt_or_ge i (s + n) with hlt | hge
      · have := hstop (i - s) (by omega)
        rwa [Nat.add_sub_cancel' hs] at this
      · exact hstops i (by omega) hi hnot.2
    · rw [List.getLast?_cons]
      cases hlast : places.getLast? <;> simp [hlast] at he ⊢ <;> exact he
    · intro hfalse _
      rw [hlead hfalse]
      rfl

theorem exists_readsAs {form : String} {p : Pattern} (hp : p.IsRow (Token.tokenize form))
    {s e : Nat} {o : Outcome} (h : U.Takes R p s e o) :
    s < e ∧ ∃ places, U.ReadsAs (Token.tokenize form) s e places := by
  obtain ⟨parts, hwords, hne, hp⟩ := hp
  obtain ⟨o', hall⟩ : ∃ o', U.TakesAll R false parts s e o' := by
    rcases hp with rfl | ⟨l, rfl⟩
    · exact ⟨_, .cons (fun _ => rfl) (stopsAt_zero s) h .nil⟩
    · exact ⟨_, takes_series.1 h⟩
  obtain ⟨places, hreads, hasc, hin, hstops, he, hhead⟩ := hall.exists_places hwords
  have hform : Token.tokenize form ≠ [] := by
    rintro hnil
    rw [hnil] at hwords
    exact hne (List.forall₂_nil_left_iff.1 hwords)
  have hhead := hhead rfl hform
  obtain ⟨-, hlt⟩ := hin s (List.mem_of_mem_head? hhead)
  refine ⟨by omega, places, ?_, hasc, hhead, ?_, hstops⟩
  · have htokens : ∀ w ∈ Token.tokenize form, w = .ofTyped w.typed := fun w =>
      Token.eq_ofTyped_of_mem_tokenize
    refine ((List.forall₂_and_left _ _).2 ⟨htokens, hreads⟩).imp ?_
    rintro w i ⟨hw, hread⟩
    rw [reads, Option.any_eq_true] at hread
    rw [hw]
    exact hread
  · cases hlast : places.getLast? with
    | none => rw [List.getLast?_eq_none_iff.1 hlast] at hhead; cases hhead
    | some i => rw [hlast] at he; simp [he]

/-! ### Slots -/

theorem TakesAll.spans_eq_nil_of {lead : Bool} {parts : List Pattern}
    (hparts : ∀ p ∈ parts, ∀ s e o, U.Takes R p s e o → o.spans = []) {s e : Nat} {o : Outcome}
    (h : U.TakesAll R lead parts s e o) : o.spans = [] := by
  induction parts generalizing lead s e o with
  | nil => rw [(takesAll_nil.1 h).2]; rfl
  | cons p parts ih =>
    obtain ⟨n, m, a, b, -, -, hp, hall, rfl⟩ := takesAll_cons.1 h
    have ha := hparts p List.mem_cons_self _ _ _ hp
    have hb := ih (fun q hq => hparts q (List.mem_cons_of_mem _ hq)) hall
    simp [Outcome.andThen, Outcome.skipping, ha, hb]

/-- A bare pattern records nothing. -/
theorem Takes.spans_eq_nil {p : Pattern} (hp : p.Bare) {s e : Nat} {o : Outcome}
    (h : U.Takes R p s e o) : o.spans = [] := by
  induction p using Pattern.node_induction generalizing s e o with
  | word l literal optional =>
    rcases takes_word.1 h with ⟨-, -, rfl⟩ | ⟨-, -, rfl⟩ <;> rfl
  | wildcard l optional =>
    rcases takes_wildcard.1 h with ⟨-, -, rfl⟩ | ⟨-, -, rfl⟩ <;> rfl
  | choice l options optional ih =>
    rcases takes_choice.1 h with ⟨before, p, after, rfl, -, hp'⟩ | ⟨-, -, rfl, -⟩
    · have hmem : p ∈ before ++ p :: after := by simp
      exact ih p hmem (hp.child hmem) hp'
    · rfl
  | series l parts ih =>
    exact (takes_series.1 h).spans_eq_nil_of fun p hmem _ _ _ => ih p hmem (hp.child hmem)
  | slot l name inner kind ih => simpa [slotName?] using (hp _ (mem_nodes_self _)).1
  | foreign v => exact absurd h not_takes_foreign

/-- How a span answers to a slot: it goes by its name, is not empty, lies within the tokens, and in
a typed slot it reads as a surface form of the type. -/
structure Answers (U : Utterance) (types : Table Value) (p : Pattern) (x : Span) : Prop where
  name_eq : p.slotName? = some x.name
  lt : x.start < x.stop
  le_size : x.stop ≤ U.size
  typed : ∀ kind, p.slotKind? = some kind → U.ReadsForm types kind x.start x.stop

open Template (Item)

/-- What a slot takes reads as it should; only one that may be left out takes nothing. -/
theorem Takes.fills {optional : Bool} {inner : Pattern} {kind : Option String}
    (hfills : Item.Fills types optional inner kind) {s e : Nat} {o : Outcome}
    (h : U.Takes R inner s e o) :
    (s = e ∧ optional = true) ∨ (s < e ∧ ∀ k, kind = some k → U.ReadsForm types k s e) := by
  cases kind with
  | none =>
    obtain ⟨l, rfl⟩ := hfills
    rcases takes_wildcard.1 h with ⟨hlt, -, -⟩ | ⟨hoptional, rfl, -⟩
    · exact .inr ⟨hlt, by simp⟩
    · exact .inl ⟨rfl, hoptional⟩
  | some kind =>
    obtain ⟨forms, hforms, vs, l, options, hvs, rfl, hall⟩ := hfills
    rcases takes_choice.1 h with ⟨before, p, after, rfl, -, hp⟩ | ⟨hoptional, rfl, -, -⟩
    · obtain ⟨v, hv, form, hform, hrow⟩ := exists_left_of_forall₂ hall (y := p) (by simp)
      obtain ⟨hlt, places, hreads⟩ := exists_readsAs hrow hp
      refine .inr ⟨hlt, ?_⟩
      rintro _ ⟨⟩
      exact ⟨forms, vs, v, form, places, hforms, hvs, hv, hform, hreads⟩
    · exact .inl ⟨rfl, hoptional⟩

/-- A part of a compiled body records at most one span, and a slot that may not be left out does
record one. -/
theorem Takes.part_spans {p : Pattern} (hp : Item.IsPart types p) {s e : Nat} {o : Outcome}
    (h : U.Takes R p s e o) (hs : s ≤ U.size) :
    (o.spans = [] ∧ (p.slotName?.isSome → p.isOptional = true)) ∨
      ∃ name, o.spans = [⟨name, s, e⟩] ∧ U.Answers types p ⟨name, s, e⟩ := by
  rcases hp with hbare | ⟨l, name, inner, kind, rfl, hfills⟩
  · refine .inl ⟨h.spans_eq_nil hbare, fun hname => ?_⟩
    simp [(hbare p (mem_nodes_self p)).1] at hname
  · obtain ⟨a, ha, rfl⟩ := takes_slot.1 h
    have hspans := ha.spans_eq_nil hfills.bare
    rcases ha.fills hfills with ⟨rfl, hoptional⟩ | ⟨hlt, htyped⟩
    · exact .inl ⟨by simp [Outcome.andThen, Outcome.spanning, Outcome.free, hspans],
        fun _ => hoptional⟩
    · exact .inr ⟨name, by simp [Outcome.andThen, Outcome.spanning, hlt, hspans],
        rfl, hlt, h.le_size hs, htyped⟩

/-- **What an alignment of a compiled body records**: the slots that take a token are in the order
of the body, each with a span of its own behind the spans of the others. -/
theorem TakesAll.exists_slots {parts : List Pattern} (hparts : ∀ p ∈ parts, Item.IsPart types p)
    {lead : Bool} {s e : Nat} {o : Outcome} (h : U.TakesAll R lead parts s e o)
    (hs : s ≤ U.size) :
    ∃ slots, slots.Sublist parts ∧ List.Forall₂ (U.Answers types) slots o.spans ∧
      o.spans.Pairwise (·.stop ≤ ·.start) ∧ (∀ x ∈ o.spans, s ≤ x.start) ∧
      ∀ p ∈ parts, p.slotName?.isSome → p.isOptional = false → p ∈ slots := by
  induction parts generalizing lead s e o with
  | nil =>
    obtain ⟨-, rfl⟩ := takesAll_nil.1 h
    exact ⟨[], .slnil, .nil, .nil, by simp [Outcome.free], by simp⟩
  | cons p parts ih =>
    obtain ⟨n, m, a, b, -, hstop, hp, hall, rfl⟩ := takesAll_cons.1 h
    obtain ⟨hpart, hparts⟩ := List.forall_mem_cons.1 hparts
    have hsize := hstop.le_size hs
    have hle := hp.le
    obtain ⟨slots, hsub, hanswers, hsorted, hbehind, hrequired⟩ :=
      ih hparts hall (hp.le_size hsize)
    have hspans : ((Outcome.skipping n).andThen (a.andThen b)).spans = a.spans ++ b.spans := rfl
    rw [hspans]
    rcases hp.part_spans hpart hsize with ⟨hnone, hoptional⟩ | ⟨name, hone, hanswer⟩
    · rw [hnone, List.nil_append]
      refine ⟨slots, hsub.cons p, hanswers, hsorted, fun x hx => ?_, ?_⟩
      · have := hbehind x hx
        omega
      · refine List.forall_mem_cons.2 ⟨fun hslot hno => ?_, hrequired⟩
        simp [hoptional hslot] at hno
    · rw [hone, List.singleton_append]
      refine ⟨p :: slots, hsub.cons_cons p, .cons hanswer hanswers,
        List.pairwise_cons.2 ⟨hbehind, hsorted⟩, ?_, ?_⟩
      · refine List.forall_mem_cons.2 ⟨Nat.le_add_right s n, fun x hx => ?_⟩
        have := hbehind x hx
        omega
      · exact List.forall_mem_cons.2 ⟨fun _ _ => List.mem_cons_self, fun q hq hslot hno =>
          List.mem_cons_of_mem _ (hrequired q hq hslot hno)⟩

end Utterance

namespace Phrase

open Pattern Template

variable {E : Entities} {types : List (String × Value)} {intent : Option String}
  {template : String} {P : Phrase} {U : Utterance} {text : Option String} {budget : Budget}
  {r : Recognition}

theorem mem_names_captures {tokens : List Token} {spans : List Span} {name : String} :
    name ∈ (captures tokens spans).names ↔ ∃ x ∈ spans, x.name = name := by
  suffices h : ∀ ns : List String,
      name ∈ (spans.map (·.name)).foldl (fun ns n => if n ∈ ns then ns else ns ++ [n]) ns ↔
        name ∈ ns ∨ ∃ x ∈ spans, x.name = name by
    simpa [names_captures] using h []
  induction spans with
  | nil => simp
  | cons x spans ih =>
    intro ns
    rw [List.map_cons, List.foldl_cons, ih, List.exists_mem_cons_iff, ← or_assoc]
    refine or_congr_left ?_
    by_cases hx : x.name ∈ ns
    · rw [if_pos hx]
      exact ⟨.inl, fun h => h.elim id fun heq => heq ▸ hx⟩
    · rw [if_neg hx, List.mem_append, List.mem_singleton]
      exact or_congr_right eq_comm

/-- The slots of a compiled phrase are parts of its body. -/
theorem mem_parts_of_slotName? {types : Table Value} {parts : List Pattern}
    (hparts : ∀ p ∈ parts, Item.IsPart types p) {l : Nat} {q : Pattern}
    (hq : q ∈ (series l parts).nodes) (hname : q.slotName?.isSome) : q ∈ parts := by
  have hbare {p : Pattern} (hp : p.Bare) : q ∉ p.nodes := by
    intro hq
    simp [(hp q hq).1] at hname
  rcases mem_nodes.1 hq with rfl | ⟨p, hp, hq⟩
  · simp [slotName?] at hname
  · rcases hparts p hp with hp' | ⟨l, name, inner, kind, rfl, hfills⟩
    · exact absurd hq (hbare hp')
    · rcases mem_nodes.1 hq with rfl | ⟨c, hc, hq⟩
      · exact hp
      · exact absurd hq (hbare (List.mem_singleton.1 hc ▸ hfills.bare))

/-- **What the slots of a compiled phrase stand for.**  Every slot that may not be left out is
there, and no others than those of the phrase.  The recorded spans belong to slots of the body in
its order, lie one behind the other, and are not empty; in a typed slot a span reads as one of the
surface forms of the type.  A name stands for the tokens of the last span under it. -/
theorem slots_exact (hE : Entities.none.declareAll types = .ok E)
    (hP : compile E intent template = .ok P)
    (hr : (P.recognise U.lexicon U.tokens text budget).1 = .ok (some r)) :
    (∀ p ∈ P.body.nodes, ∀ name, p.slotName? = some name → p.isOptional = false →
      name ∈ r.slots.names) ∧
    (∀ name ∈ r.slots.names, name ∈ P.slotNames) ∧
    (∃ slots, slots.Sublist P.body.children ∧
      List.Forall₂ (U.Answers (Table.putAll [] types)) slots r.outcome.spans) ∧
    r.outcome.spans.Pairwise (fun x y => x.stop ≤ y.start) ∧
    ∀ name, r.slots.get? name = (lastSpan? name r.outcome.spans).map (Span.text U.tokens) := by
  obtain ⟨parts, hwell, hparts⟩ := exists_parts_of_compile (Entities.lists_none.declareAll hE) hP
  obtain ⟨-, hslots, hcovers⟩ := covers_of_recognise hwell hr
  obtain ⟨m, n, a, hall, -, -, ho⟩ := Utterance.takesBody_iff.1 hcovers
  have hspans : r.outcome.spans = a.spans := by
    rw [ho]
    exact List.append_nil a.spans
  obtain ⟨slots, hsub, hanswers, hsorted, -, hrequired⟩ :=
    hall.exists_slots hparts (Nat.zero_le _)
  obtain ⟨l, hbody⟩ := hwell.body_eq
  rw [← hspans] at hanswers hsorted
  rw [hslots, slotNames, Pattern.slotNames, hbody]
  refine ⟨fun p hp name hname hno => ?_, fun name hname => ?_, ⟨slots, hsub, hanswers⟩, hsorted,
    get?_captures U.tokens r.outcome.spans⟩
  · have hmem := mem_parts_of_slotName? hparts hp (by simp [hname])
    obtain ⟨x, hx, hanswer⟩ :=
      exists_left_of_forall₂ hanswers.flip (hrequired p hmem (by simp [hname]) hno)
    exact mem_names_captures.2 ⟨x, hx, Option.some.inj (hanswer.name_eq.symm.trans hname)⟩
  · obtain ⟨x, hx, rfl⟩ := mem_names_captures.1 hname
    obtain ⟨p, hp, hanswer⟩ := exists_left_of_forall₂ hanswers hx
    have hnode : p ∈ (series l parts).nodes :=
      mem_nodes_of_child (hsub.subset hp) (mem_nodes_self p)
    exact List.mem_eraseDups.2 (List.mem_filterMap.2 ⟨p, hnode, hanswer.name_eq⟩)

/-- Rooms by their surface forms, as they are declared. -/
def rooms : List (String × Value) := [("room", .list [.string "hall", .string "living room"])]

/-- The rooms as a pattern. -/
def roomPattern : Pattern :=
  .choice 0 [.word 1 "hall" false, .series 2 [.word 3 "living" false, .word 4 "room" false]] false

/-- A stopword within a surface form belongs to the span, those around it do not. -/
theorem dim_slots :
    let U : Utterance := ⟨Token.tokenize "dim the Living the room please", .english⟩
    ∃ E P r, Entities.none.declareAll rooms = .ok E ∧
      compile E none "dim [where:room]" = .ok P ∧
      (P.recognise U.lexicon U.tokens none ⟨100, 0⟩).1 = .ok (some r) ∧
      "where" ∈ r.slots.names ∧ r.slots.get? "where" = some "Living the room" ∧
      ∃ v ∈ [Value.string "hall", .string "living room"], ∃ form places,
        v.asText = .ok form ∧ U.ReadsAs (Token.tokenize form) 2 5 places := by
  intro U
  have hE : Entities.none.declareAll rooms = .ok ⟨[("room", roomPattern)], 5⟩ := by
    with_unfolding_all rfl
  have hP : compile ⟨[("room", roomPattern)], 5⟩ none "dim [where:room]" =
      .ok (assemble ⟨[("room", roomPattern)], 5⟩ none "dim [where:room]"
        [.atom (.word "dim" false), .slot "where" false (some ("room", roomPattern))]) := by
    with_unfolding_all rfl
  obtain ⟨r, hr, houtcome⟩ : ∃ r : Recognition, ((assemble ⟨[("room", roomPattern)], 5⟩ none
      "dim [where:room]" [.atom (.word "dim" false),
        .slot "where" false (some ("room", roomPattern))]).recognise U.lexicon U.tokens none
          ⟨100, 0⟩).1 = .ok (some r) ∧ r.outcome = ⟨3, 0, [⟨"where", 2, 5⟩]⟩ :=
    exists_recognition (by decide +kernel)
  obtain ⟨hrequired, -, ⟨slots, hsub, hanswers⟩, -, hget⟩ := slots_exact hE hP hr
  have hslot : Pattern.slot 7 "where" roomPattern (some "room") ∈ (assemble
      ⟨[("room", roomPattern)], 5⟩ none "dim [where:room]" [.atom (.word "dim" false),
        .slot "where" false (some ("room", roomPattern))]).body.nodes :=
    mem_nodes_of_child (by exact List.mem_cons_of_mem _ List.mem_cons_self) (mem_nodes_self _)
  refine ⟨_, _, r, hE, hP, hr, hrequired _ hslot _ rfl rfl, ?_, ?_⟩
  · rw [hget, houtcome]
    decide +kernel
  · rw [houtcome] at hanswers
    obtain ⟨p, rest, hanswer, -, rfl⟩ := List.forall₂_cons_right_iff.1 hanswers
    have hkind : p.slotKind? = some "room" := by
      rcases List.mem_cons.1 (hsub.subset List.mem_cons_self) with rfl | hp
      · cases hanswer.name_eq
      · rw [List.mem_singleton.1 hp]
        rfl
    obtain ⟨forms, vs, v, form, places, hforms, hvs, hv, hform, hreads⟩ :=
      hanswer.typed "room" hkind
    cases hforms
    cases hvs
    exact ⟨v, hv, form, places, hform, hreads⟩

end Phrase

end IntentGrammar

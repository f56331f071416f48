import IntentGrammar.Proofs.Captures
import IntentGrammar.Proofs.Enumeration
import IntentGrammar.Proofs.Variations

/-!
# Examples under different caps

The cap cuts every list of examples on the way, also those of the parts that the examples of a whole
are made of.  Still it never shows but in the length of the result: the examples under a cap are the
first ones of a list that does not depend on the cap (`Pattern.Enumerates`).

A list that is cut at the cap holds `cap` different texts, and each of them makes a text of its own
where it stands in a choice, or in a series beside the first texts of the other parts.  So a list
that is made from cut ones may differ from the one made from whole ones only behind `cap` different
texts (`AlikeUpTo`), where the cap cuts again.

* `Phrase.examples_take` : **a smaller cap gives the first examples of a larger one.**
-/

namespace IntentGrammar

namespace Pattern

variable {cap : Nat} {fill : String → Option String} {xs ys zs ws : List String}
  {lists : List (List String)}

/-! ### Lists that are alike up to a cap -/

/-- The lists are the same, or the same up to a place behind `cap` different texts. -/
def AlikeUpTo (cap : Nat) (xs ys : List String) : Prop :=
  xs = ys ∨ ∃ front, front <+: xs ∧ front <+: ys ∧ cap ≤ front.toFinset.card

theorem capped_eq_of_card_le (h : xs <+: ys) (hcard : cap ≤ xs.toFinset.card) :
    capped cap ys = capped cap xs := by
  obtain ⟨zs, rfl⟩ := h
  rw [← length_eraseDups] at hcard
  rw [capped, capped, List.eraseDups_append, List.take_append_of_le_length hcard]

namespace AlikeUpTo

theorem refl (cap : Nat) (xs : List String) : AlikeUpTo cap xs xs := .inl rfl

theorem capped_eq (h : AlikeUpTo cap xs ys) : capped cap xs = capped cap ys := by
  obtain rfl | ⟨front, hxs, hys, hcard⟩ := h
  · rfl
  · rw [capped_eq_of_card_le hxs hcard, capped_eq_of_card_le hys hcard]

theorem append (h : AlikeUpTo cap xs ys) (h' : AlikeUpTo cap zs ws) :
    AlikeUpTo cap (xs ++ zs) (ys ++ ws) := by
  obtain rfl | ⟨front, hxs, hys, hcard⟩ := h
  · obtain rfl | ⟨front, hzs, hws, hcard⟩ := h'
    · exact .refl cap _
    · refine .inr ⟨xs ++ front, (List.prefix_append_right_inj xs).2 hzs,
        (List.prefix_append_right_inj xs).2 hws, hcard.trans (Finset.card_le_card ?_)⟩
      rw [List.toFinset_append]
      exact Finset.subset_union_right
  · exact .inr ⟨front, hxs.trans (List.prefix_append xs zs), hys.trans (List.prefix_append ys ws),
      hcard⟩

/-- A list that is cut at the cap holds as many different texts. -/
theorem take (h : xs.Nodup) (cap : Nat) : AlikeUpTo cap (xs.take cap) xs := by
  by_cases hcap : cap ≤ xs.length
  · refine .inr ⟨xs.take cap, List.prefix_rfl, List.take_prefix cap xs, ?_⟩
    rw [List.toFinset_card_of_nodup (h.sublist (List.take_sublist cap xs)), List.length_take]
    omega
  · rw [List.take_of_length_le (by omega)]
    exact .refl cap xs

theorem flatten (h : ∀ xs ∈ lists, xs.Nodup) (cap : Nat) :
    AlikeUpTo cap (lists.map (List.take cap)).flatten lists.flatten := by
  induction lists with
  | nil => exact .refl cap []
  | cons xs lists ih =>
    obtain ⟨hxs, hlists⟩ := List.forall_mem_cons.1 h
    exact (take hxs cap).append (ih hlists)

end AlikeUpTo

/-! ### Texts of a part in a series -/

theorem exists_around_intercalate (front back : List String) :
    ∃ pre post : String,
      (∀ piece, " ".intercalate (front ++ piece :: back) = pre ++ piece ++ post) ∧
      (" ".intercalate (front ++ back)).length ≤ pre.length + post.length := by
  induction front with
  | nil =>
    cases back with
    | nil => exact ⟨"", "", by simp, by simp⟩
    | cons b back =>
      refine ⟨"", " " ++ " ".intercalate (b :: back), fun piece => ?_, ?_⟩
      · simp [String.intercalate_cons_cons, String.append_assoc]
      · simp
  | cons a front ih =>
    obtain ⟨pre, post, hpiece, hlength⟩ := ih
    refine ⟨a ++ " " ++ pre, post, fun piece => ?_, ?_⟩
    · rw [List.cons_append, String.intercalate_cons_of_ne_nil (by simp), hpiece]
      simp only [String.append_assoc]
    · by_cases hnil : front ++ back = []
      · rw [List.cons_append, hnil, String.intercalate_singleton]
        simp only [String.length_append]
        omega
      · rw [List.cons_append, String.intercalate_cons_of_ne_nil hnil]
        simp only [String.length_append]
        omega

/-- What stands around a piece in a joined text. -/
theorem exists_around (front back : List String) :
    ∃ pre post : String,
      (∀ piece, piece ≠ "" → joinPieces (front ++ piece :: back) = pre ++ piece ++ post) ∧
      (joinPieces (front ++ back)).length ≤ pre.length + post.length := by
  obtain ⟨pre, post, hpiece, hlength⟩ :=
    exists_around_intercalate (front.filter (· != "")) (back.filter (· != ""))
  rw [← List.filter_append] at hlength
  refine ⟨pre, post, fun piece hne => ?_, hlength⟩
  rw [joinPieces, List.filter_append, List.filter_cons_of_pos (by simpa using hne), hpiece]

theorem joinPieces_empty (front back : List String) :
    joinPieces (front ++ "" :: back) = joinPieces (front ++ back) := by
  simp [joinPieces, List.filter_append]

/-- A piece takes room in a joined text, and there is only one text with the piece left out. -/
theorem joinPieces_empty_ne (front back : List String) {piece : String} (h : piece ≠ "") :
    joinPieces (front ++ "" :: back) ≠ joinPieces (front ++ piece :: back) := by
  obtain ⟨pre, post, hpiece, hlength⟩ := exists_around front back
  have hpos : piece.length ≠ 0 := by simpa using h
  intro heq
  have hlen := congrArg String.length heq
  rw [joinPieces_empty, hpiece piece h, String.length_append, String.length_append] at hlen
  omega

/-- Different texts of one part make different texts of the whole, also if one of them is empty. -/
theorem joinPieces_injective (front back : List String) :
    Function.Injective fun piece => joinPieces (front ++ piece :: back) := by
  obtain ⟨pre, post, hpiece, -⟩ := exists_around front back
  intro a b hab
  by_cases ha : a = "" <;> by_cases hb : b = ""
  · rw [ha, hb]
  · subst ha
    exact absurd hab (joinPieces_empty_ne front back hb)
  · subst hb
    exact absurd hab.symm (joinPieces_empty_ne front back ha)
  · simp only [hpiece a ha, hpiece b hb] at hab
    exact (String.append_right_inj pre).1 ((String.append_left_inj post).1 hab)

theorem joinPieces_ne_empty {pieces : List String} (h : ∃ piece ∈ pieces, piece ≠ "") :
    joinPieces pieces ≠ "" := by
  obtain ⟨piece, hmem, hne⟩ := h
  obtain ⟨front, back, rfl⟩ := List.append_of_mem hmem
  obtain ⟨pre, post, hpiece, -⟩ := exists_around front back
  rw [hpiece piece hne]
  simp [hne]

theorem firsts_take (h : 0 < cap) (lists : List (List String)) :
    firsts (lists.map (List.take cap)) = firsts lists := by
  obtain ⟨n, rfl⟩ := Nat.exists_eq_add_of_lt h
  rw [firsts, firsts, List.map_map]
  refine List.map_congr_left fun texts _ => ?_
  cases texts <;> simp

/-- The cap leaves something of every list of which there is something. -/
theorem forall_take_ne_nil (hcap : 0 < cap) :
    (∀ texts ∈ lists.map (List.take cap), texts ≠ []) ↔ ∀ texts ∈ lists, texts ≠ [] := by
  rw [List.forall_mem_map]
  refine forall₂_congr fun texts _ => not_congr ?_
  rw [List.take_eq_nil_iff]
  exact or_iff_right (by omega)

theorem map_take_of_le (h : ∀ texts ∈ lists, texts.length ≤ cap) :
    lists.map (List.take cap) = lists :=
  (List.map_congr_left fun texts htexts => List.take_of_length_le (h texts htexts)).trans
    (List.map_id lists)

/-- Of the last part, the texts that the cap leaves are varied first. -/
theorem prefix_spread_take {front : List (List String)} (h : ∀ texts ∈ front, texts ≠ [])
    (hcap : 0 < cap) (texts : List String) :
    spread (front ++ [texts.take cap]) <+: spread (front ++ [texts]) := by
  have hfirsts : firsts [texts.take cap] = firsts [texts] := firsts_take hcap [texts]
  rw [spread_append h, spread_append h, hfirsts, List.prefix_append_right_inj]
  refine List.IsPrefix.map _ ?_
  cases texts with
  | nil => rw [List.take_nil]
  | cons first others =>
    obtain ⟨n, rfl⟩ := Nat.exists_eq_add_of_lt hcap
    rw [List.take_succ_cons, singleVariations, singleVariations]
    simpa [singleVariations] using (List.take_prefix _ others).map _

/-- Each text of a part makes a text of its own. -/
theorem length_le_card_spread {front : List (List String)} (h : ∀ texts ∈ front, texts ≠ [])
    {texts : List String} (hnodup : texts.Nodup) (tail : List String) :
    texts.length ≤
      (((spread (front ++ [texts])).map (· ++ tail)).map joinPieces).toFinset.card := by
  let join (text : String) : String := joinPieces (firsts front ++ text :: tail)
  have hjoin : (texts.map join).Nodup := hnodup.map (joinPieces_injective (firsts front) tail)
  have hsub : (texts.map join).toFinset ⊆
      (((spread (front ++ [texts])).map (· ++ tail)).map joinPieces).toFinset := by
    intro joined hjoined
    obtain ⟨text, htext, rfl⟩ := List.mem_map.1 (List.mem_toFinset.1 hjoined)
    have hspread := mem_spread h htext []
    refine List.mem_toFinset.2 (List.mem_map.2 ⟨_, List.mem_map_of_mem hspread, ?_⟩)
    simp [join, firsts]
  calc
    texts.length = (texts.map join).toFinset.card := by
      rw [List.toFinset_card_of_nodup hjoin, List.length_map]
    _ ≤ _ := Finset.card_le_card hsub

/-- The first list that is longer than the cap makes `cap` different texts, and the combinations up
to these are the same for the lists and for what the cap leaves of them. -/
theorem spread_take (hcap : 0 < cap) (hne : ∀ texts ∈ lists, texts ≠ [])
    (hnodup : ∀ texts ∈ lists, texts.Nodup) :
    lists.map (List.take cap) = lists ∨ ∃ front, front <+: spread (lists.map (List.take cap)) ∧
      front <+: spread lists ∧ cap ≤ (front.map joinPieces).toFinset.card := by
  by_cases hlong : ∃ texts ∈ lists, cap < texts.length
  · obtain ⟨before, long, after, rfl, hlength, hbefore⟩ := Utterance.exists_first_with hlong
    have hkept : before.map (List.take cap) = before :=
      map_take_of_le fun texts h => not_lt.1 (hbefore texts h)
    have hfilled : ∀ texts ∈ before, texts ≠ [] := fun texts h =>
      hne texts (List.mem_append_left _ h)
    have hwhole : ∀ texts ∈ before ++ [long], texts ≠ [] := by
      rw [List.append_cons] at hne
      exact fun texts h => hne texts (List.mem_append_left _ h)
    have hcut : ∀ texts ∈ before ++ [long.take cap], texts ≠ [] := by
      have hcut := (forall_take_ne_nil hcap).2 hwhole
      rwa [List.map_append, hkept] at hcut
    refine .inr ⟨(spread (before ++ [long.take cap])).map (· ++ firsts after), ?_, ?_, ?_⟩
    · let rest := after.map (List.take cap)
      rw [List.map_append, hkept, List.map_cons, List.append_cons before (long.take cap) rest,
        spread_append hcut, firsts_take hcap]
      exact List.prefix_append _ _
    · rw [List.append_cons before long after, spread_append hwhole]
      exact ((prefix_spread_take hfilled hcap long).map _).trans (List.prefix_append _ _)
    · have htake : (long.take cap).Nodup :=
        (hnodup long (by simp)).sublist (List.take_sublist cap long)
      have hcard := length_le_card_spread hfilled htake (firsts after)
      rwa [List.length_take, Nat.min_eq_left hlength.le] at hcard
  · exact .inl (map_take_of_le fun texts h => not_lt.1 fun hlt => hlong ⟨texts, h, hlt⟩)

theorem alikeUpTo_combinations (hcap : 0 < cap) (hnodup : ∀ texts ∈ lists, texts.Nodup) :
    AlikeUpTo cap ((combinations (lists.map (List.take cap))).map joinPieces)
      ((combinations lists).map joinPieces) := by
  by_cases hne : ∀ texts ∈ lists, texts ≠ []
  · have hcut := (forall_take_ne_nil hcap).2 hne
    obtain heq | ⟨front, hfront, hfront', hcard⟩ := spread_take hcap hne hnodup
    · rw [heq]
      exact .refl cap _
    · rw [combinations_eq hcut, combinations_eq hne]
      exact .inr ⟨front.map joinPieces, (hfront.trans (List.prefix_append _ _)).map joinPieces,
        (hfront'.trans (List.prefix_append _ _)).map joinPieces, hcard⟩
  · rw [combinations_eq_nil hne, combinations_eq_nil (mt (forall_take_ne_nil hcap).1 hne)]
    exact .refl cap _

/-! ### Examples of a pattern -/

/-- Under every cap the examples are the first ones of the given texts. -/
def Enumerates (fill : String → Option String) (p : Pattern) (texts : List String) : Prop :=
  texts.Nodup ∧ ∀ cap, 0 < cap → p.examples fill cap = .ok (texts.take cap)

/-- The texts with the one that an optional pattern adds. -/
def orEmpty (optional : Bool) (texts : List String) : List String :=
  texts ++ if optional then [""] else []

/-- The pattern has no empty example but the one that it adds where it is optional. -/
def EmptyLast (fill : String → Option String) (p : Pattern) : Prop :=
  ∃ texts, "" ∉ texts ∧ p.Enumerates fill (orEmpty p.isOptional texts)

theorem enumerates_of_capped {p : Pattern} {texts : List String}
    (h : ∀ cap, 0 < cap → p.examples fill cap = .ok (capped cap texts)) :
    p.Enumerates fill texts.eraseDups :=
  ⟨nodup_eraseDups texts, h⟩

theorem exists_lists {R : Pattern → List String → Prop} {ps : List Pattern}
    (h : ∀ p ∈ ps, ∃ texts, R p texts) : ∃ lists, List.Forall₂ R ps lists := by
  induction ps with
  | nil => exact ⟨[], .nil⟩
  | cons p ps ih =>
    obtain ⟨⟨texts, htexts⟩, hps⟩ := List.forall_mem_cons.1 h
    obtain ⟨lists, hlists⟩ := ih hps
    exact ⟨texts :: lists, .cons htexts hlists⟩

section

variable {ps : List Pattern} (h : List.Forall₂ (Enumerates fill) ps lists)
include h

theorem nodup_of_enumerates : ∀ texts ∈ lists, texts.Nodup := by
  induction h with
  | nil => simp
  | cons hp hps ih => exact List.forall_mem_cons.2 ⟨hp.1, ih⟩

theorem examplesOfAll_take (hcap : 0 < cap) :
    examplesOfAll fill cap ps = .ok (lists.map (List.take cap)) :=
  examplesOfAll_eq (List.forall₂_map_right_iff.2 (h.imp fun _ _ hp => hp.2 cap hcap))

/-- The examples of a choice are those of its options, one after the other. -/
theorem enumerates_choice (l : Nat) (optional : Bool) :
    (Pattern.choice l ps optional).Enumerates fill (orEmpty optional lists.flatten).eraseDups := by
  refine enumerates_of_capped fun cap hcap => ?_
  have halike := (AlikeUpTo.flatten (nodup_of_enumerates h) cap).append
    (.refl cap (if optional then [""] else []))
  rw [examples, examplesOfAll_take h hcap]
  exact congrArg Except.ok halike.capped_eq

/-- The examples of a series are the texts of all combinations. -/
theorem enumerates_series (l : Nat) :
    (Pattern.series l ps).Enumerates fill ((combinations lists).map joinPieces).eraseDups := by
  refine enumerates_of_capped fun cap hcap => ?_
  have halike := alikeUpTo_combinations hcap (nodup_of_enumerates h)
  rw [examples, examplesOfAll_take h hcap]
  show Except.ok (capped cap (seriesTexts cap (lists.map (List.take cap)))) = _
  rw [seriesTexts_eq_capped, capped_capped, halike.capped_eq]

end

theorem examples_slot_of_some {name text : String} (h : fill name = some text) (l : Nat)
    (inner : Pattern) (kind : Option String) (cap : Nat) :
    (Pattern.slot l name inner kind).examples fill cap =
      .ok (capped cap (orEmpty inner.isOptional [text])) := by
  unfold examples
  rw [h]
  rfl

theorem filter_take_orEmpty {texts : List String} (h : "" ∉ texts) (optional : Bool) (cap : Nat) :
    ((orEmpty optional texts).take cap).filter (· != "") = texts.take cap := by
  have hfront : (texts.take cap).filter (· != "") = texts.take cap := by
    refine List.filter_eq_self.2 fun text htext => ?_
    rw [bne_iff_ne]
    exact fun hempty => h (hempty ▸ List.mem_of_mem_take htext)
  have hback :
      ((if optional then [""] else []).take (cap - texts.length)).filter (· != "") = [] := by
    refine List.filter_eq_nil_iff.2 fun text htext => ?_
    have hmem := List.mem_of_mem_take htext
    cases optional <;> simp_all
  rw [orEmpty, List.take_append, List.filter_append, hfront, hback, List.append_nil]

theorem nodup_orEmpty {texts : List String} (hempty : "" ∉ texts) (hnodup : texts.Nodup)
    (optional : Bool) : (orEmpty optional texts).Nodup := by
  cases optional
  · simpa [orEmpty] using hnodup
  · have hne : ∀ text ∈ texts, text ≠ "" := fun text htext => ne_of_mem_of_not_mem htext hempty
    simpa [orEmpty, List.nodup_append, hnodup] using hne

theorem enumerates_wildcard (l : Nat) (optional : Bool) :
    (Pattern.wildcard l optional).Enumerates fill (orEmpty optional [standIn]) := by
  have hnodup : (orEmpty optional [standIn]).Nodup := nodup_orEmpty (by decide) (by simp) optional
  refine ⟨hnodup, fun cap _ => ?_⟩
  rw [examples]
  show Except.ok (capped cap (orEmpty optional [standIn])) = _
  rw [capped, eraseDups_of_nodup hnodup]

/-- A slot that is not filled in has the examples of the pattern in it; the stand-in is that of a
wildcard. -/
theorem examples_slot_of_none {name : String} (h : fill name = none) (hcap : 0 < cap) (l : Nat)
    (inner : Pattern) (kind : Option String) :
    (Pattern.slot l name inner kind).examples fill cap = (inner.examples fill cap).map fun texts =>
      capped cap (orEmpty inner.isOptional (texts.filter (· != ""))) := by
  generalize hinner : inner.examples fill cap = result
  unfold examples
  split
  · next text hfill => cases hfill.symm.trans h
  · next l optional hfill =>
    have hstandIn : "" ∉ [standIn] := by decide
    rw [(enumerates_wildcard l optional).2 cap hcap] at hinner
    rw [← hinner]
    simp only [Except.map, filter_take_orEmpty hstandIn]
    rw [List.take_of_length_le (show [standIn].length ≤ cap from hcap)]
    rfl
  · rw [hinner]
    cases result <;> rfl

theorem exists_enumerates_slot {inner : Pattern} (h : inner.EmptyLast fill) (l : Nat)
    (name : String) (kind : Option String) :
    ∃ texts, (Pattern.slot l name inner kind).Enumerates fill texts := by
  cases hfill : fill name with
  | some text =>
    exact ⟨_, enumerates_of_capped fun cap _ => examples_slot_of_some hfill l inner kind cap⟩
  | none =>
    obtain ⟨texts, hempty, hnodup, htexts⟩ := h
    refine ⟨(orEmpty inner.isOptional texts).eraseDups, enumerates_of_capped fun cap hcap => ?_⟩
    -- the empty text is taken out behind the cut; as it is the last one, no other is missed for it
    have halike := (AlikeUpTo.take (hnodup.sublist (List.sublist_append_left _ _)) cap).append
      (.refl cap (if inner.isOptional then [""] else []))
    rw [examples_slot_of_none hfill hcap, htexts cap hcap]
    show Except.ok (capped cap (orEmpty _ (List.filter _ _))) = _
    rw [filter_take_orEmpty hempty]
    exact congrArg Except.ok halike.capped_eq

/-- **The examples under a cap are the first ones of a list that does not depend on the cap.** -/
theorem exists_enumerates {p : Pattern} (hpure : p.firstForeign? = none)
    (hslots : ∀ l name inner kind, .slot l name inner kind ∈ p.nodes → inner.EmptyLast fill) :
    ∃ texts, p.Enumerates fill texts := by
  induction p using node_induction with
  | word l literal optional => exact ⟨_, enumerates_of_capped fun cap _ => by rw [examples]⟩
  | wildcard l optional => exact ⟨_, enumerates_wildcard l optional⟩
  | choice l options optional ih =>
    obtain ⟨lists, hlists⟩ := exists_lists fun p hp =>
      ih p hp (firstForeign?_of_child hpure (by exact hp)) fun l name inner kind hmem =>
        hslots l name inner kind (mem_nodes_of_child (by exact hp) hmem)
    exact ⟨_, enumerates_choice hlists l optional⟩
  | series l parts ih =>
    obtain ⟨lists, hlists⟩ := exists_lists fun p hp =>
      ih p hp (firstForeign?_of_child hpure (by exact hp)) fun l name inner kind hmem =>
        hslots l name inner kind (mem_nodes_of_child (by exact hp) hmem)
    exact ⟨_, enumerates_series hlists l⟩
  | slot l name inner kind ih =>
    exact exists_enumerates_slot (hslots l name inner kind (mem_nodes_self _)) l name kind
  | foreign v => simp [firstForeign?, nodes, foreign?] at hpure

/-! ### Surface forms -/

/-- The pattern has examples, and none of them is empty. -/
def NeverEmpty (fill : String → Option String) (p : Pattern) : Prop :=
  ∃ texts, p.Enumerates fill texts ∧ "" ∉ texts

theorem neverEmpty_word {literal : String} (h : literal ≠ "") (l : Nat) :
    (Pattern.word l literal false).NeverEmpty fill :=
  ⟨_, enumerates_of_capped fun cap _ => by rw [examples], by simpa using h.symm⟩

section

variable {ps : List Pattern} (h : ∀ p ∈ ps, p.NeverEmpty fill)
include h

theorem exists_lists_of_neverEmpty :
    ∃ lists, List.Forall₂ (Enumerates fill) ps lists ∧ ∀ texts ∈ lists, "" ∉ texts := by
  obtain ⟨lists, hlists⟩ := exists_lists h
  refine ⟨lists, hlists.imp fun _ _ hp => hp.1, fun texts htexts => ?_⟩
  obtain ⟨p, -, -, hempty⟩ := exists_left_of_forall₂ hlists htexts
  exact hempty

theorem neverEmpty_series (hne : ps ≠ []) (l : Nat) : (Pattern.series l ps).NeverEmpty fill := by
  obtain ⟨lists, hlists, hempty⟩ := exists_lists_of_neverEmpty h
  refine ⟨_, enumerates_series hlists l, fun hmem => ?_⟩
  rw [List.mem_eraseDups, List.mem_map] at hmem
  obtain ⟨pieces, hpieces, heq⟩ := hmem
  cases mem_combinations.1 hpieces with
  | nil => exact hne (List.forall₂_nil_right_iff.1 hlists)
  | cons hpiece _ =>
    refine joinPieces_ne_empty ⟨_, List.mem_cons_self, fun hnil => ?_⟩ heq
    exact hempty _ List.mem_cons_self (hnil ▸ hpiece)

theorem emptyLast_choice (l : Nat) (optional : Bool) :
    (Pattern.choice l ps optional).EmptyLast fill := by
  obtain ⟨lists, hlists, hempty⟩ := exists_lists_of_neverEmpty h
  have hflat : "" ∉ lists.flatten := by simpa using hempty
  refine ⟨lists.flatten.eraseDups, mt List.mem_eraseDups.1 hflat, ?_⟩
  have hchoice := enumerates_choice hlists l optional
  cases optional with
  | false => simpa [orEmpty, isOptional] using hchoice
  | true => simpa [orEmpty, isOptional, eraseDups_concat, hflat] using hchoice

end

theorem neverEmpty_row {form : String} {p : Pattern} (h : p.IsRow (Token.tokenize form)) :
    p.NeverEmpty fill := by
  obtain ⟨parts, hwords, hne, hp⟩ := h
  have hparts : ∀ q ∈ parts, q.NeverEmpty fill := by
    intro q hq
    obtain ⟨w, hw, l, rfl⟩ := exists_left_of_forall₂ hwords hq
    exact neverEmpty_word (Token.typed_ne_empty hw) l
  rcases hp with rfl | ⟨l, rfl⟩
  · exact hparts p List.mem_cons_self
  · exact neverEmpty_series hparts hne l

open Template (Item)

/-- What stands in a slot of a compiled phrase has no empty example of its own. -/
theorem emptyLast_of_fills {types : Table Value} {optional : Bool} {inner : Pattern}
    {kind : Option String} (h : Item.Fills types optional inner kind) : inner.EmptyLast fill := by
  cases kind with
  | none =>
    obtain ⟨l, rfl⟩ := h
    exact ⟨[standIn], by decide, enumerates_wildcard l optional⟩
  | some kind =>
    obtain ⟨forms, -, vs, l, options, -, rfl, hforms⟩ := h
    refine emptyLast_choice (fun p hp => ?_) l optional
    obtain ⟨v, -, form, -, hrow⟩ := exists_left_of_forall₂ hforms hp
    exact neverEmpty_row hrow

end Pattern

namespace Phrase

open Pattern Template

variable {E : Entities} {types : List (String × Value)} {intent : Option String}
  {template : String} {P : Phrase}

theorem exists_enumerates (hE : Entities.none.declareAll types = .ok E)
    (hP : compile E intent template = .ok P) (fill : String → Option String) :
    ∃ texts, P.body.Enumerates fill texts := by
  obtain ⟨parts, hwell, hparts⟩ := exists_parts_of_compile (Entities.lists_none.declareAll hE) hP
  obtain ⟨l, hbody⟩ := hwell.body_eq
  refine Pattern.exists_enumerates hwell.firstForeign?_eq fun l name inner kind hslot => ?_
  have hpart := mem_parts_of_slotName? hparts (hbody ▸ hslot) rfl
  rcases hparts _ hpart with hbare | ⟨l', name', inner', kind', heq, hfills⟩
  · exact absurd (hbare _ (mem_nodes_self _)).1 (by simp [slotName?])
  · cases heq
    exact emptyLast_of_fills hfills

/-- **A smaller cap gives the first examples of a larger one.**  None is replaced, none comes in
another order, and the number of them is the cap unless the larger one gives fewer. -/
theorem examples_take (hE : Entities.none.declareAll types = .ok E)
    (hP : compile E intent template = .ok P) (fill : String → Option String) {cap cap' : Nat}
    (hcap : 0 < cap) (hle : cap ≤ cap') :
    ∃ texts, P.body.examples fill cap' = .ok texts ∧
      P.body.examples fill cap = .ok (texts.take cap) ∧
      ∀ G : Grammar, G.phrases = [P] →
        (G.settings.maxEnumerations = cap' → G.examples fill = .ok texts) ∧
        (G.settings.maxEnumerations = cap → G.examples fill = .ok (texts.take cap)) := by
  obtain ⟨all, hnodup, hall⟩ := exists_enumerates hE hP fill
  have hlarge := hall cap' (hcap.trans_le hle)
  have hsmall : P.body.examples fill cap = .ok ((all.take cap').take cap) := by
    rw [List.take_take, Nat.min_eq_left hle]
    exact hall cap hcap
  have hgrammar {texts : List String} (hsub : texts.Sublist all) {G : Grammar}
      (hG : G.phrases = [P])
      (htexts : P.body.examples fill G.settings.maxEnumerations = .ok texts) :
      G.examples fill = .ok texts := by
    rw [Grammar.examples_of_singleton hG htexts, eraseDups_of_nodup (hnodup.sublist hsub)]
  have hfirst : (all.take cap').Sublist all := List.take_sublist cap' all
  refine ⟨all.take cap', hlarge, hsmall, fun G hG => ⟨?_, ?_⟩⟩
  · rintro rfl
    exact hgrammar hfirst hG hlarge
  · rintro rfl
    exact hgrammar ((List.take_sublist _ _).trans hfirst) hG hsmall

/-- With room for two examples the article is left out once, and the rooms beyond the first one
have to wait. -/
theorem dim_examples :
    ∃ E P texts, Entities.none.declareAll rooms = .ok E ∧
      compile E none "dim (the |) [where:room]?" = .ok P ∧
      P.body.examples (fun _ => none) 5 = .ok texts ∧
      P.body.examples (fun _ => none) 2 = .ok (texts.take 2) ∧
      texts.take 2 = ["dim the hall", "dim hall"] := by
  have hE : Entities.none.declareAll rooms = .ok ⟨[("room", roomPattern)], 5⟩ := by
    with_unfolding_all rfl
  let items : List Item := [.atom (.word "dim" false), .group [[.word "the" false]] true,
    .slot "where" true (some ("room", roomPattern))]
  have hP : compile ⟨[("room", roomPattern)], 5⟩ none "dim (the |) [where:room]?" =
      .ok (assemble ⟨[("room", roomPattern)], 5⟩ none "dim (the |) [where:room]?" items) := by
    with_unfolding_all rfl
  obtain ⟨texts, hlarge, hsmall, -⟩ :=
    examples_take hE hP (fun _ => none) (show 0 < 2 by decide) (show 2 ≤ 5 by decide)
  have htexts := hlarge.symm.trans (show _ = Except.ok ["dim the hall", "dim hall",
    "dim the living room", "dim the", "dim living room"] by with_unfolding_all rfl)
  refine ⟨_, _, texts, hE, hP, hlarge, hsmall, ?_⟩
  rw [Except.ok.inj htexts]
  rfl

end Phrase

end IntentGrammar

import IntentGrammar.Proofs.Casing
import IntentGrammar.Proofs.Template.Blame
import IntentGrammar.Proofs.Template.Compiled
import IntentGrammar.Proofs.Template.Joining

/-!
# Words that can be said

The punctuation around a word is no part of it in an utterance, nor in the surface form of an
entity type; in a template it is.  So a word of a template that has punctuation at one of its ends
is compared with tokens that never have any.

The words of a compiled phrase are texts without blanks, and not empty, whatever they were taken
from: a plain word, a word with and without its fragments, or an option (`isRun_of_mem_ownWords`).
Such a text is the word of a token unless punctuation touches it (`Token.sayable_iff`).

* `compile_sayable_iff` : **the words of a template that can be said are those without punctuation
  around them.**
-/

namespace IntentGrammar

/-- A text that can stand between two blanks. -/
def Text.IsRun (cs : List Char) : Prop := cs ≠ [] ∧ ∀ c ∈ cs, isBlank c = false

/-! ### Tokens -/

namespace Token

open Text

/-- Some utterance has one token, and it is compared as the word is. -/
def Sayable (literal : String) : Prop :=
  ∃ utterance t, tokenize utterance = [t] ∧ t.folded = Pattern.key literal

/-- A token has no punctuation around it. -/
theorem trim_of_mem_tokenize {text : String} {t : Token} (h : t ∈ tokenize text) :
    trim isEdge t.typed.toList = t.typed.toList := by
  obtain ⟨run, -, hrun⟩ := List.mem_filterMap.1 h
  rw [ofRun?] at hrun
  split at hrun
  · cases hrun
  · cases hrun
    rw [ofTyped, String.toList_ofList, trim_trim]

/-- A text is folded to one without punctuation around it only if it has none itself. -/
theorem trim_foldCase_iff {text : String} :
    trim isEdge (foldCase text).toList = (foldCase text).toList ↔
      trim isEdge text.toList = text.toList := by
  have hkeeps := keeps_foldChar mem_separators_of_isEdge
  rw [toList_foldCase, hkeeps.trim_flatMap]
  refine ⟨fun h => ?_, fun h => by rw [h]⟩
  obtain ⟨front, back, hsplit⟩ := exists_append_trim isEdge text.toList
  generalize trim isEdge text.toList = rest at h hsplit
  rw [hsplit, List.flatMap_append, List.flatMap_append] at h
  have hlength := congrArg List.length h
  simp only [List.length_append] at hlength
  have hfront : front = [] := hkeeps.flatMap_eq_nil.1 (List.length_eq_zero_iff.1 (by omega))
  have hback : back = [] := hkeeps.flatMap_eq_nil.1 (List.length_eq_zero_iff.1 (by omega))
  rw [hsplit, hfront, hback, List.nil_append, List.append_nil]

/-- A text without blanks, and with no punctuation around it, is one token. -/
theorem tokenize_of_isRun {text : String} (h : IsRun text.toList)
    (htrim : trim isEdge text.toList = text.toList) : tokenize text = [ofTyped text] := by
  obtain ⟨c, cs, htext⟩ := List.exists_cons_of_ne_nil h.1
  have hrun : ofRun? text.toList = some (ofTyped text) := by
    rw [ofRun?, htrim, htext]
    show some (ofTyped (String.ofList (c :: cs))) = _
    rw [← htext, String.ofList_toList]
  rw [tokenize, words_eq_singleton h.1 h.2, List.filterMap_cons_some hrun, List.filterMap_nil]

/-- A text without blanks can be said just when there is no punctuation around it. -/
theorem sayable_iff {literal : String} (h : IsRun literal.toList) :
    Sayable literal ↔ trim isEdge literal.toList = literal.toList := by
  constructor
  · rintro ⟨utterance, t, htokens, hfolded⟩
    have hmem : t ∈ tokenize utterance := htokens ▸ List.mem_singleton_self t
    rw [eq_ofTyped_of_mem_tokenize hmem] at hfolded
    have hsame : foldCase t.typed = foldCase literal := hfolded
    rw [← trim_foldCase_iff, ← hsame, trim_foldCase_iff]
    exact trim_of_mem_tokenize hmem
  · intro htrim
    exact ⟨literal, ofTyped literal, tokenize_of_isRun h htrim, rfl⟩

end Token

/-! ### Words of a pattern -/

namespace Pattern

mutual

/-- The words of a pattern, in order, those of entity types apart. -/
def ownWords : Pattern → List String
  | .word _ literal _ => [literal]
  | .choice _ options _ => ownWordsOfAll options
  | .series _ parts => ownWordsOfAll parts
  | .slot _ _ inner none => inner.ownWords
  | .slot _ _ _ (some _) | .wildcard _ _ | .foreign _ => []

/-- The words of several patterns. -/
def ownWordsOfAll : List Pattern → List String
  | [] => []
  | p :: ps => p.ownWords ++ ownWordsOfAll ps

end

end Pattern

namespace Template

open Pattern Text

namespace Atom

/-- The words of an atom. -/
def literals : Atom → List String
  | .word literal _ => [literal]
  | .wildcard _ => []
  | .variants short long _ => [short, long]

theorem ownWords_build (next : Nat) (a : Atom) : (a.build next).1.ownWords = a.literals := by
  cases a <;> rfl

theorem ownWords_buildAll (next : Nat) (as : List Atom) :
    ownWordsOfAll (buildAll next as).1 = as.flatMap literals := by
  induction as generalizing next with
  | nil => rfl
  | cons a as ih => simp only [buildAll, ownWordsOfAll, ownWords_build, ih, List.flatMap_cons]

theorem ownWords_buildOption (next : Nat) (as : List Atom) :
    (buildOption next as).1.ownWords = as.flatMap literals := by
  match as with
  | [] => rfl
  | [a] => rw [buildOption, ownWords_build, List.flatMap_singleton]
  | a :: b :: as => simp only [buildOption, ownWords, ownWords_buildAll]

theorem ownWords_buildOptions (next : Nat) (options : List (List Atom)) :
    ownWordsOfAll (buildOptions next options).1 = options.flatMap (List.flatMap literals) := by
  induction options generalizing next with
  | nil => rfl
  | cons o options ih =>
    simp only [buildOptions, ownWordsOfAll, ownWords_buildOption, ih, List.flatMap_cons]

end Atom

namespace Item

/-- The words of an item. -/
def literals : Item → List String
  | .atom a => a.literals
  | .group options _ => options.flatMap (List.flatMap Atom.literals)
  | .slot .. | .tags _ => []

theorem ownWords_buildSlot (next : Nat) (name : String) (optional : Bool)
    (entity : Option (String × Pattern)) :
    (buildSlot next name optional entity).1.ownWords = [] := by
  match entity, optional with
  | none, _ => rfl
  | some _, true => rfl
  | some _, false => rfl

/-- The words of a body are those of its items. -/
theorem ownWords_buildAll (next : Nat) (items : List Item) :
    ownWordsOfAll (buildAll next items).1 = items.flatMap literals := by
  induction items generalizing next with
  | nil => rfl
  | cons item items ih =>
    rw [List.flatMap_cons]
    cases item with
    | tags es => exact ih next
    | atom a => simp only [buildAll, ownWordsOfAll, Atom.ownWords_build, ih, literals]
    | group options optional =>
      simp only [buildAll, ownWordsOfAll, ownWords, Atom.ownWords_buildOptions, ih, literals]
    | slot name optional entity =>
      simp only [buildAll, ownWordsOfAll, ownWords_buildSlot, ih, literals]

end Item

/-! ### Words of a template -/

/-- The stretches of a word without blanks hold something, and no blanks. -/
theorem isRun_of_strands {opened : Option (Nat × List Char)} {gs : List Glyph}
    {parts : List Strand} (hgs : ∀ g ∈ gs, g.isBlank = false)
    (hopened : ∀ o ∈ opened, ∀ c ∈ o.2, isBlank c = false) (h : strands opened gs = .ok parts) :
    ∀ part ∈ parts, IsRun part.long := by
  have hplain {c : Char} (hc : isBlank c = false) : IsRun (Strand.plain c).long :=
    ⟨List.cons_ne_nil c [], List.forall_mem_singleton.2 hc⟩
  fun_induction strands opened gs generalizing parts with
  | case1 =>
    cases h
    exact fun part hpart => absurd hpart List.not_mem_nil
  | case2 pos cs => cases h
  | case3 g gs hcloser hopener ih =>
    obtain ⟨hg, hgs⟩ := List.forall_mem_cons.1 hgs
    obtain ⟨more, hmore, rfl⟩ := Item.exists_of_map_eq_ok h
    exact List.forall_mem_cons.2 ⟨hplain hg, ih hgs hopened hmore⟩
  | case4 g gs pos cs hcloser hopener ih =>
    obtain ⟨hg, hgs⟩ := List.forall_mem_cons.1 hgs
    have hcs := hopened (pos, cs) rfl
    refine ih hgs ?_ h
    rintro _ ⟨⟩
    exact List.forall_mem_append.2 ⟨hcs, List.forall_mem_singleton.2 hg⟩
  | case5 g gs hopener ih =>
    refine ih (List.forall_mem_cons.1 hgs).2 ?_ h
    rintro _ ⟨⟩
    exact fun c hc => absurd hc List.not_mem_nil
  | case6 g gs pos cs hcloser hopener ih =>
    obtain ⟨more, hmore, rfl⟩ := Item.exists_of_map_eq_ok h
    have hbraced : ∀ part ∈ braced cs, IsRun part.long := by
      have hcs := hopened (pos, cs) rfl
      cases cs with
      | nil => exact List.forall_mem_cons.2 ⟨hplain rfl, List.forall_mem_singleton.2 (hplain rfl)⟩
      | cons c cs => exact List.forall_mem_singleton.2 ⟨List.cons_ne_nil c cs, hcs⟩
    refine List.forall_mem_append.2 ⟨hbraced, ih (List.forall_mem_cons.1 hgs).2 ?_ hmore⟩
    rintro _ ⟨⟩
  | case7 opened g gs b hopener => cases h
  | case8 opened g gs b hcloser hopener => cases h

/-- A word that is not empty has a stretch, and so has one whose brace is open. -/
theorem ne_nil_of_strands {opened : Option (Nat × List Char)} {gs : List Glyph}
    {parts : List Strand} (hne : gs ≠ [] ∨ opened ≠ none) (h : strands opened gs = .ok parts) :
    parts ≠ [] := by
  fun_induction strands opened gs generalizing parts with
  | case1 => simp at hne
  | case2 pos cs => cases h
  | case3 g gs hcloser hopener ih =>
    obtain ⟨more, -, rfl⟩ := Item.exists_of_map_eq_ok h
    exact List.cons_ne_nil _ _
  | case4 g gs pos cs hcloser hopener ih => exact ih (.inr (Option.some_ne_none _)) h
  | case5 g gs hopener ih => exact ih (.inr (Option.some_ne_none _)) h
  | case6 g gs pos cs hcloser hopener ih =>
    obtain ⟨more, -, rfl⟩ := Item.exists_of_map_eq_ok h
    cases cs <;> exact List.cons_ne_nil _ _
  | case7 opened g gs b hopener => cases h
  | case8 opened g gs b hcloser hopener => cases h

theorem Strand.short_subset (part : Strand) : part.short ⊆ part.long := by
  cases part with
  | plain c => exact List.Subset.refl _
  | fragment cs => exact List.nil_subset _

namespace Atom

/-- The words of the atom can stand between blanks. -/
def IsSolid (a : Atom) : Prop := ∀ literal ∈ a.literals, IsRun literal.toList

theorem isSolid_ofStrands {parts : List Strand} (hne : parts ≠ [])
    (hparts : ∀ part ∈ parts, IsRun part.long) (optional : Bool) :
    (ofStrands parts optional).IsSolid := by
  have hlong : IsRun (parts.flatMap Strand.long) := by
    refine ⟨fun hnil => ?_, fun c hc => ?_⟩
    · obtain ⟨part, hpart⟩ := List.exists_mem_of_ne_nil parts hne
      exact (hparts part hpart).1 (List.flatMap_eq_nil_iff.1 hnil part hpart)
    · obtain ⟨part, hpart, hc⟩ := List.mem_flatMap.1 hc
      exact (hparts part hpart).2 c hc
  have hshort : ∀ c ∈ parts.flatMap Strand.short, isBlank c = false := fun c hc => by
    obtain ⟨part, hpart, hc⟩ := List.mem_flatMap.1 hc
    exact (hparts part hpart).2 c (Strand.short_subset part hc)
  have hword {cs : List Char} (h : IsRun cs) : IsRun (String.ofList cs).toList := by
    rwa [String.toList_ofList]
  rw [ofStrands]
  split
  · split
    · exact List.forall_mem_singleton.2 (hword hlong)
    · next hne =>
      exact List.forall_mem_cons.2 ⟨hword ⟨hne, hshort⟩, List.forall_mem_singleton.2 (hword hlong)⟩
  · next hno =>
    -- without fragments nothing is left out
    have hsame : parts.flatMap Strand.short = parts.flatMap Strand.long := by
      refine List.flatMap_congr fun part hpart => ?_
      cases part with
      | plain c => rfl
      | fragment cs => exact absurd (List.any_eq_true.2 ⟨_, hpart, rfl⟩) hno
    exact List.forall_mem_singleton.2 (hword (hsame ▸ hlong))

variable {g : Glyph} {gs : List Glyph} {a : Atom}

theorem isSolid_of_read (hgs : ∀ x ∈ g :: gs, x.isBlank = false) (h : read g gs = .ok a) :
    a.IsSolid := by
  obtain ⟨-, hread⟩ | ⟨optional, hread⟩ | ⟨stem, optional, hne, hstem, hread⟩ := read_cases g gs
  · cases hread.symm.trans h
  · cases hread.symm.trans h
    exact fun literal hliteral => absurd hliteral List.not_mem_nil
  · obtain ⟨parts, hparts, rfl⟩ := Item.exists_of_map_eq_ok (hread.symm.trans h)
    have hruns := isRun_of_strands (fun x hx => hgs x (hstem.subset hx)) (by rintro o ⟨⟩) hparts
    exact isSolid_ofStrands (ne_nil_of_strands (.inl hne) hparts) hruns optional

theorem isSolid_of_readAll {words : List (List Glyph)} {as : List Atom}
    (hwords : ∀ word ∈ words, ∀ g ∈ word, g.isBlank = false) (h : readAll words = .ok as) :
    ∀ a ∈ as, a.IsSolid := by
  induction words generalizing as with
  | nil =>
    cases h
    exact fun a ha => absurd ha List.not_mem_nil
  | cons word words ih =>
    obtain ⟨hword, hmoreWords⟩ := List.forall_mem_cons.1 hwords
    cases word with
    | nil => exact ih hmoreWords h
    | cons g gs =>
      rw [readAll] at h
      cases hr : read g gs with
      | error f =>
        rw [hr] at h
        cases h
      | ok a =>
        rw [hr] at h
        obtain ⟨more, hmore, rfl⟩ := Item.exists_of_map_eq_ok h
        exact List.forall_mem_cons.2 ⟨isSolid_of_read hword hr, ih hmoreWords hmore⟩

theorem isSolid_of_readRun {as : List Atom} (h : readRun gs = .ok as) : ∀ a ∈ as, a.IsSolid :=
  isSolid_of_readAll (fun _ => forall_of_mem_splitOnP) h

end Atom

namespace Item

/-- The words of the item can stand between blanks. -/
def IsSolid (item : Item) : Prop := ∀ literal ∈ item.literals, IsRun literal.toList

variable {entities : Table Pattern} {g : Glyph} {gs left : List Glyph} {item : Item}

theorem isSolid_of_readGroup {b : Block} (h : readGroup g b = .ok item) : item.IsSolid := by
  obtain ⟨options, hoptions, rfl⟩ := readGroup_eq_ok h
  intro literal hliteral
  obtain ⟨option, hoption, hin⟩ := List.mem_flatMap.1 hliteral
  obtain ⟨a, ha, hin⟩ := List.mem_flatMap.1 hin
  obtain ⟨run, -, hrun⟩ := exists_of_mem_mapM hoptions option (List.mem_of_mem_filter hoption)
  exact Atom.isSolid_of_readRun hrun a ha literal hin

theorem isSolid_of_read (hg : g.isBlank = false) (h : read entities g gs = .ok (item, left)) :
    item.IsSolid := by
  have hnone {item : Item} (h : item.literals = []) : item.IsSolid := fun literal hliteral =>
    absurd (h ▸ hliteral) List.not_mem_nil
  obtain ⟨-, hread⟩ | ⟨kind, f, -, -, hread⟩ | ⟨kind, b, -, -, -, hread⟩ | ⟨b, -, -, -, hread⟩ |
    ⟨b, -, -, hread⟩ := read_cases entities g gs
  · obtain ⟨a, ha, heq⟩ := exists_of_map_eq_ok (hread.symm.trans h)
    cases heq
    refine Atom.isSolid_of_read (List.forall_mem_cons.2 ⟨hg, fun x hx => ?_⟩) ha
    have hends := List.mem_takeWhile_imp hx
    simp only [endsWord, Bool.not_eq_true', Bool.or_eq_false_iff] at hends
    exact hends.1.1
  · cases hread.symm.trans h
  · obtain ⟨es, -, heq⟩ := exists_of_map_eq_ok (hread.symm.trans h)
    cases heq
    exact hnone rfl
  · obtain ⟨item', hslot, heq⟩ := exists_of_map_eq_ok (hread.symm.trans h)
    cases heq
    obtain ⟨name, optional, entity, rfl, -⟩ := readSlot_eq_ok hslot
    exact hnone rfl
  · obtain ⟨item', hgroup, heq⟩ := exists_of_map_eq_ok (hread.symm.trans h)
    cases heq
    exact isSolid_of_readGroup hgroup

/-- The words of a template can stand between blanks. -/
theorem isSolid_of_readAll {items : List Item} (h : readAll entities gs = .ok items) :
    ∀ item ∈ items, item.IsSolid := by
  fun_induction readAll entities gs generalizing items with
  | case1 =>
    cases h
    exact fun item hitem => absurd hitem List.not_mem_nil
  | case2 => cases h
  | case3 gs g rest hgs item left hr ih =>
    obtain ⟨more, hmore, rfl⟩ := exists_of_map_eq_ok h
    exact List.forall_mem_cons.2 ⟨isSolid_of_read (isBlank_of_dropWhile hgs) hr, ih hmore⟩

end Item

variable {E : Entities} {intent : Option String} {template : String} {P : Phrase}

/-- The words of a compiled phrase can stand between blanks. -/
theorem isRun_of_mem_ownWords (h : compile E intent template = .ok P) :
    ∀ literal ∈ P.body.ownWords, IsRun literal.toList := by
  obtain ⟨items, hitems, rfl⟩ := Item.exists_of_map_eq_ok h
  intro literal hliteral
  rw [assemble, ownWords, Item.ownWords_buildAll] at hliteral
  obtain ⟨item, hitem, hliteral⟩ := List.mem_flatMap.1 hliteral
  exact Item.isSolid_of_readAll hitems item hitem literal hliteral

/-- **A word of a template can be said just when no punctuation touches it.**  Of the words of a
compiled phrase, those of entity types apart, the ones that some utterance consists of are those
that trimming the punctuation of an utterance leaves as they are. -/
theorem compile_sayable_iff (h : compile E intent template = .ok P) :
    ∀ literal ∈ P.body.ownWords,
      Token.Sayable literal ↔ trim Token.isEdge literal.toList = literal.toList :=
  fun literal hliteral => Token.sayable_iff (isRun_of_mem_ownWords h literal hliteral)

/-- A word with its fragment can be said, beside a word that cannot. -/
theorem compile_sayable_pages :
    ∃ P, compile Entities.none none "page(s) (it's | now.) [x]" = .ok P ∧
      P.body.ownWords = ["page", "pages", "it's", "now."] ∧
      Token.Sayable "pages" ∧ Token.Sayable "it's" ∧ ¬Token.Sayable "now." := by
  have hP : compile Entities.none none "page(s) (it's | now.) [x]" =
      .ok (assemble Entities.none none "page(s) (it's | now.) [x]"
        [.atom (.variants "page" "pages" false),
          .group [[.word "it's" false], [.word "now." false]] false, .slot "x" false none]) := by
    with_unfolding_all rfl
  have hiff := compile_sayable_iff hP
  exact ⟨_, hP, rfl, (hiff _ (by decide)).2 (by decide), (hiff _ (by decide)).2 (by decide),
    mt (hiff _ (by decide)).1 (by decide)⟩

/-- The comma behind a word is a part of the word, so that nothing is ever compared equal. -/
theorem compile_unsayable_hello :
    ∃ P, compile Entities.none none "hello," = .ok P ∧ "hello," ∈ P.body.ownWords ∧
      ¬Token.Sayable "hello," := by
  have hP : compile Entities.none none "hello," =
      .ok (assemble Entities.none none "hello," [.atom (.word "hello," false)]) := by
    with_unfolding_all rfl
  have hsolid : ("hello,".toList.all fun c => !isBlank c) = true := rfl
  have hrun : IsRun "hello,".toList :=
    ⟨by decide, fun c hc => by simpa using List.all_eq_true.1 hsolid c hc⟩
  exact ⟨_, hP, List.mem_singleton.2 rfl, mt (Token.sayable_iff hrun).1 (by decide)⟩

end Template

end IntentGrammar

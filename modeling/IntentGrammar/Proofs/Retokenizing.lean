import IntentGrammar.Proofs.Combinations
import IntentGrammar.Proofs.Stopwords
import IntentGrammar.Proofs.Template.Sayable

/-!
# Tokens of tokens

What is shown of an utterance is put together from the words as they were typed, one space between
two of them.  Read again, it has the tokens that it was put together from: a typed word has no
blanks in it and no punctuation around it, so it is its own only token (`Token.tokenize_typed`), and
blanks between two texts keep their tokens apart (`Token.tokenize_append_blanks`).

* `Token.tokenize_undoes_render` : **reading undoes showing**, also for what a slot captured, and
  blanks separate whatever stands around them.
-/

namespace IntentGrammar

namespace Token

variable {text : String} {t : Token}

theorem isRun_of_mem_tokenize (h : t ∈ tokenize text) : Text.IsRun t.typed.toList := by
  refine ⟨mt String.toList_eq_nil_iff.1 (typed_ne_empty h), fun c hc => ?_⟩
  obtain ⟨run, hword, hrun⟩ := List.mem_filterMap.1 h
  rw [ofRun?] at hrun
  split at hrun
  · cases hrun
  · cases hrun
    rw [ofTyped, String.toList_ofList] at hc
    exact (Text.of_mem_words hword).2 c (Text.mem_of_mem_trim hc)

/-- A typed word is its own only token. -/
theorem tokenize_typed (h : t ∈ tokenize text) : tokenize t.typed = [t] := by
  rw [tokenize_of_isRun (isRun_of_mem_tokenize h) (trim_of_mem_tokenize h),
    ← eq_ofTyped_of_mem_tokenize h]

/-- Tokens are read again from what is shown of them. -/
theorem tokenize_render {ts : List Token} (h : ts ⊆ tokenize text) : tokenize (render ts) = ts := by
  rw [render, tokenize_intercalate, List.flatMap_map]
  calc ts.flatMap (fun t => tokenize t.typed)
      = ts.flatMap fun t => [t] := List.flatMap_congr fun t ht => tokenize_typed (h ht)
    _ = ts := List.flatMap_singleton' ts

end Token

namespace Phrase

open Token

variable {P : Phrase} {lexicon : Lexicon} {tokens : List Token} {text : Option String}
  {budget : Budget} {r : Recognition}

/-- The slots that are reported are read off the spans that are reported. -/
theorem slots_of_recognise (hr : (P.recognise lexicon tokens text budget).1 = .ok (some r)) :
    r.slots = captures tokens r.outcome.spans := by
  simp only [recognise] at hr
  split at hr
  · cases hr
  · cases hr
  · cases hr
  · cases hr
    rfl

end Phrase

namespace Token

/-- **Reading undoes showing.**  Whatever stretch of the tokens of an utterance is shown, its tokens
are read again from what is shown; so a slot holds a text whose tokens are those of the span that
the slot captured.  And blanks between two texts keep the tokens of the one apart from those of the
other, however many blanks there are, and of whatever kind. -/
theorem tokenize_undoes_render (utterance : String) :
    (∀ start stop, tokenize (render (((tokenize utterance).take stop).drop start)) =
      ((tokenize utterance).take stop).drop start) ∧
    (∀ (P : Phrase) lexicon text budget r,
      (P.recognise lexicon (tokenize utterance) text budget).1 = .ok (some r) →
      ∀ name value, r.slots.get? name = some value →
        ∃ x, lastSpan? name r.outcome.spans = some x ∧
          tokenize value = ((tokenize utterance).take x.stop).drop x.start) ∧
    ∀ blanks other : String, blanks ≠ "" → (∀ c ∈ blanks.toList, Text.isBlank c = true) →
      tokenize (utterance ++ blanks ++ other) = tokenize utterance ++ tokenize other := by
  have hstretch (start stop : Nat) :
      tokenize (render (((tokenize utterance).take stop).drop start)) =
        ((tokenize utterance).take stop).drop start :=
    tokenize_render fun t ht => List.mem_of_mem_take (List.mem_of_mem_drop ht)
  refine ⟨hstretch, ?_, fun blanks other => tokenize_append_blanks utterance other⟩
  intro P lexicon text budget r hr name value hvalue
  rw [Phrase.slots_of_recognise hr, Phrase.get?_captures] at hvalue
  obtain ⟨x, hx, rfl⟩ := Option.map_eq_some_iff.1 hvalue
  exact ⟨x, hx, hstretch x.start x.stop⟩

/-- The room is read again without the punctuation behind it, and blanks of several kinds are as
good as one. -/
theorem dim_retokenized :
    (∃ r, (Phrase.dim.recognise .english (tokenize "Dim the (living room)!") none ⟨100, 0⟩).1 =
        .ok (some r) ∧
      ∃ value, r.slots.get? "room" = some value ∧
        tokenize value = [ofTyped "living", ofTyped "room"]) ∧
    tokenize ("Dim the (living room)!" ++ " \t\n" ++ "now.") =
      tokenize "Dim the (living room)!" ++ tokenize "now." := by
  obtain ⟨-, hslots, hblanks⟩ := tokenize_undoes_render "Dim the (living room)!"
  obtain ⟨r, hr, houtcome⟩ : ∃ r : Recognition, (Phrase.dim.recognise .english
      (tokenize "Dim the (living room)!") none ⟨100, 0⟩).1 = .ok (some r) ∧
        r.outcome = ⟨1, 0, [⟨"room", 2, 4⟩]⟩ := Phrase.exists_recognition (by decide +kernel)
  have hvalue : r.slots.get? "room" = some "living room" := by
    rw [Phrase.slots_of_recognise hr, houtcome]
    decide +kernel
  obtain ⟨x, hx, htokens⟩ := hslots Phrase.dim .english none ⟨100, 0⟩ r hr "room" _ hvalue
  have hspan : x = ⟨"room", 2, 4⟩ := by
    rw [houtcome] at hx
    exact Option.some_inj.1 (hx.symm.trans (by decide +kernel))
  refine ⟨⟨r, hr, _, hvalue, htokens.trans ?_⟩,
    hblanks _ _ (by decide) (List.all_eq_true.1 (by decide))⟩
  rw [hspan]
  decide +kernel

end Token

end IntentGrammar

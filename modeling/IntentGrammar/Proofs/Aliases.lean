import IntentGrammar.Lexicon.Declared
import Mathlib.Data.List.Forall2

/-!
# Aliases

What a listing of variants by canonical word comes to.  A word that is listed as a variant belongs
to the canonical word that lists it last (`Lexicon.owner?`), and this is all that the alias table
says (`Lexicon.get?_flatten`).  So the variants of one canonical word, if no other word takes them
away, mean the same as each other.  They need not mean the same as the canonical word: that one is
looked up in the table as well, and there it may belong to a third word.

* `Lexicon.equivalent_variants` : **variants that keep their canonical word mean the same**, and the
  same as this word just when it does not belong to another one.
-/

namespace IntentGrammar.Lexicon

/-! ### Declared listings -/

/-- The variants of one canonical word as data: a single text, or a list of texts. -/
inductive Lists : Value → List String → Prop
  | one (v : String) : Lists (.string v) [v]
  | several (vs : List String) : Lists (.list (vs.map .string)) vs

/-- The aliases are declared by a map from canonical words to their variants. -/
def Declares (aliases : Value) (listing : List (String × List String)) : Prop :=
  ∃ entries, aliases = .map entries ∧
    List.Forall₂ (fun e l => e.1 = .string l.1 ∧ Lists e.2 l.2) entries listing

theorem readVariants_of_lists {v : Value} {vs : List String} (h : Lists v vs) :
    readVariants v = .ok vs := by
  cases h with
  | one v => rfl
  | several vs =>
    have htexts : (vs.map Value.string).map Value.text = vs := by
      rw [List.map_map]
      exact List.map_id vs
    exact congrArg Except.ok htexts

theorem mapM_of_forall₂ {ε α β : Type} {f : α → Except ε β} {xs : List α} {ys : List β}
    (h : List.Forall₂ (fun x y => f x = .ok y) xs ys) : xs.mapM f = .ok ys := by
  induction h with
  | nil => rfl
  | cons hx _ ih =>
    rw [List.mapM_cons, hx, ih]
    rfl

/-- A map of canonical words is never refused. -/
theorem readAliases_of_declares {aliases : Value} {listing : List (String × List String)}
    (h : Declares aliases listing) : readAliases aliases = .ok (.ok (flatten listing)) := by
  obtain ⟨entries, rfl, hentries⟩ := h
  simp only [readAliases, readEntries, bind, Except.bind]
  rw [mapM_of_forall₂ (hentries.imp _)]
  · rfl
  · intro e l he
    obtain ⟨hkey, hlists⟩ := he
    rw [hkey, readVariants_of_lists hlists]
    rfl

theorem aliases_of_declare {language stopwords aliases : Value} {L : Lexicon}
    {listing : List (String × List String)} (ha : Declares aliases listing)
    (h : declare language stopwords aliases = .ok L) : L.aliases = flatten listing := by
  rw [declare, readAliases_of_declares ha] at h
  cases hstop : readStopwords stopwords with
  | error f =>
    rw [hstop] at h
    cases h
  | ok words =>
    rw [hstop] at h
    cases hlanguage : readLanguage language with
    | error rule =>
      rw [hlanguage] at h
      cases h
    | ok name =>
      rw [hlanguage] at h
      cases h
      rfl

/-! ### The table of a listing -/

/-- An entry of a listing lists a word. -/
def lists (word : String) (e : String × List String) : Bool :=
  (e.2.map Text.foldCase).contains word

/-- The canonical word that a word belongs to: the one of the last entry that lists it. -/
def owner? (listing : List (String × List String)) (word : String) : Option String :=
  (listing.reverse.find? (lists word)).map fun e => Text.foldCase e.1

theorem get?_putVariants (canonical : String) (vs : List String) (t : Table String)
    (word : String) :
    Table.get? (vs.foldl (fun t v => t.put (Text.foldCase v) canonical) t) word =
      if (vs.map Text.foldCase).contains word then some canonical else t.get? word := by
  induction vs generalizing t with
  | nil => rfl
  | cons v vs ih =>
    rw [List.foldl_cons, ih, Table.get?_put, List.map_cons, List.contains_cons]
    by_cases hv : Text.foldCase v = word
    · simp [hv]
    · simp [hv, Ne.symm hv]

/-- **The table of a listing**: every word is found under the canonical word it belongs to. -/
theorem get?_flatten (listing : List (String × List String)) (word : String) :
    (flatten listing).get? word = owner? listing word := by
  suffices h : ∀ t : Table String, Table.get? (listing.foldl
      (fun t e => e.2.foldl (fun t v => t.put (Text.foldCase v) (Text.foldCase e.1)) t) t) word =
        (owner? listing word).or (t.get? word) from (h []).trans Option.or_none
  induction listing with
  | nil => intro t; rfl
  | cons e listing ih =>
    intro t
    rw [List.foldl_cons, ih, get?_putVariants, owner?, owner?, List.reverse_cons,
      List.find?_append, List.find?_singleton, ← lists]
    cases listing.reverse.find? (lists word) <;> split <;> rfl

/-! ### Words of one entry -/

/-- No later entry takes the variant away to another canonical word. -/
def Keeps (canonical : String) (later : List (String × List String)) (variant : String) : Prop :=
  ∀ e ∈ later, lists (Text.foldCase variant) e = true → Text.foldCase e.1 = Text.foldCase canonical

variable {before after : List (String × List String)} {c v : String} {vs : List String}

/-- A variant belongs to the canonical word that keeps it. -/
theorem owner?_of_keeps (hv : v ∈ vs) (hkeeps : Keeps c after v) :
    owner? (before ++ (c, vs) :: after) (Text.foldCase v) = some (Text.foldCase c) := by
  have hself : lists (Text.foldCase v) (c, vs) = true :=
    List.contains_iff_mem.2 (List.mem_map_of_mem hv)
  rw [owner?, List.reverse_append, List.reverse_cons, List.append_assoc, List.find?_append]
  cases hlater : after.reverse.find? (lists (Text.foldCase v)) with
  | none => simp [hself]
  | some e =>
    have hmem := List.mem_reverse.1 (List.mem_of_find?_eq_some hlater)
    exact congrArg some (hkeeps e hmem (List.find?_some hlater))

theorem canonical_eq {L : Lexicon} {listing : List (String × List String)}
    (h : L.aliases = flatten listing) (word : String) :
    L.canonical word = (owner? listing word).getD word := by
  rw [canonical, h, get?_flatten]

/-- **Variants that keep their canonical word mean the same**, in every lexicon that is declared
with it.  They mean the same as the canonical word just when this one belongs to no other word. -/
theorem equivalent_variants {language stopwords aliases : Value} {L : Lexicon}
    (ha : Declares aliases (before ++ (c, vs) :: after))
    (h : declare language stopwords aliases = .ok L) (hv : v ∈ vs) (hkeeps : Keeps c after v) :
    (L.equivalent (Text.foldCase v) (Text.foldCase c) = true ↔
      ∀ owner ∈ owner? (before ++ (c, vs) :: after) (Text.foldCase c), owner = Text.foldCase c) ∧
    ∀ w ∈ vs, Keeps c after w →
      L.equivalent (Text.foldCase v) (Text.foldCase w) = true := by
  have hcanonical := canonical_eq (aliases_of_declare ha h)
  constructor
  · rw [equivalent_iff, hcanonical, hcanonical, owner?_of_keeps hv hkeeps, Option.getD_some]
    cases owner? (before ++ (c, vs) :: after) (Text.foldCase c) with
    | none => simp
    | some owner => simp [eq_comm]
  · intro w hw hkeeps'
    rw [equivalent_iff, hcanonical, hcanonical, owner?_of_keeps hv hkeeps,
      owner?_of_keeps hw hkeeps', Option.getD_some, Option.getD_some]

/-- A map in which `light` is listed as a variant of `lamp`, and then of itself. -/
def lightAliases : Value :=
  .map [(.string "lamp", .string "light"),
    (.string "Light", .list [.string "LIGHTS", .string "light"])]

/-- The later entry takes the word back, so its other variant means the same. -/
theorem lights_mean_light : ∃ L : Lexicon,
    declare (.string "custom") .null lightAliases = .ok L ∧
      L.equivalent "lights" "light" = true := by
  have ha : Declares lightAliases ([("lamp", ["light"])] ++ ("Light", ["LIGHTS", "light"]) :: []) :=
    ⟨_, rfl, .cons ⟨rfl, .one "light"⟩ (.cons ⟨rfl, .several ["LIGHTS", "light"]⟩ .nil)⟩
  have h : declare (.string "custom") .null lightAliases =
      .ok ⟨"custom", [], flatten [("lamp", ["light"]), ("Light", ["LIGHTS", "light"])]⟩ := rfl
  have howner : ∀ owner ∈ owner? [("lamp", ["light"]), ("Light", ["LIGHTS", "light"])]
      (Text.foldCase "Light"), owner = Text.foldCase "Light" := by decide +kernel
  exact ⟨_, h, (equivalent_variants ha h (v := "LIGHTS") List.mem_cons_self nofun).1.2 howner⟩

/-- A canonical word that is listed as a variant of another one is left by its own variants: `lite`
is listed for `light` alone, and still does not mean `light`. -/
theorem lite_not_light : ∃ L : Lexicon,
    declare (.string "custom") .null (.map [(.string "light", .list [.string "lite"]),
      (.string "lamp", .list [.string "light"])]) = .ok L ∧
    Keeps "light" [("lamp", ["light"])] "lite" ∧ L.equivalent "lite" "light" = false := by
  refine ⟨_, rfl, ?_, by decide +kernel⟩
  intro e he hlists
  obtain rfl := List.mem_singleton.1 he
  exact absurd hlists (by decide +kernel)

end IntentGrammar.Lexicon

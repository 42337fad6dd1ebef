import ContextFree.Derivation
import ContextFree.Grammar.Text
import ContextFree.Proofs.Interning
import ContextFree.Proofs.Outcomes
import ContextFree.Proofs.Separating

/-!
# Reading a listing back

A listing tells the rules of a grammar by name, and grammar text is read by name as well, so
both meet at the rules spelled out in names. Writing is undone on the text: a listing is split into
lines, a line at its arrow, and what follows at the bars. Blanks and the sign of the empty word
may be left out before splitting, for no bar is among them.

Reading interns the names in the order of the text, which need not be the order of the grammar
that was listed. A symbol keeps its name once it has one, so the rules read so far stay spelled as
they are, and the next line adds one rule at the end.
-/
namespace ContextFree

lemma map_eq_of_forall₂ {α β : Type} {f : α → β} {as : List α} {bs : List β}
    (h : List.Forall₂ (fun a b => f a = b) as bs) : as.map f = bs := by
  rwa [← List.forall₂_eq_eq_eq, List.forall₂_map_left_iff]

/-! ### Rules spelled out -/

/-- A rule in names. -/
structure Line where
  lhs : String
  alternatives : List (List String)

namespace Line

def alternativeText (names : List String) : String :=
  if names.isEmpty then String.singleton emptyWordSign else " ".intercalate names

/-- What stands behind the arrow. -/
def alternativesText (line : Line) : String :=
  " | ".intercalate (line.alternatives.map alternativeText)

/-- The line of a listing. -/
def text (line : Line) : String := line.lhs ++ " → " ++ line.alternativesText

/-- A name that grammar text can express: one character, which is no blank and no sign. -/
def Plain (name : String) : Prop :=
  ∃ c, name = String.singleton c ∧ isSymbolChar c = true ∧ c ≠ alternativeSign

/-- A rule that grammar text can express. -/
structure Legible (line : Line) : Prop where
  lhs : Plain line.lhs
  names : ∀ names ∈ line.alternatives, ∀ name ∈ names, Plain name
  alternatives : line.alternatives ≠ []

lemma Plain.of_mem {name : String} (h : Plain name) :
    ∀ c ∈ name.toList, isSymbolChar c = true ∧ c ≠ alternativeSign := by
  obtain ⟨c, rfl, hplain⟩ := h
  simpa using hplain

lemma filter_alternativeText {names : List String} (h : ∀ name ∈ names, Plain name) :
    (alternativeText names).toList.filter isSymbolChar = names.flatMap String.toList := by
  cases names with
  | nil => decide
  | cons first rest =>
    have hkept : (first :: rest).map (List.filter isSymbolChar ∘ String.toList) =
        (first :: rest).map String.toList :=
      List.map_congr_left fun name hname =>
        List.filter_eq_self.2 fun c hc => ((h name hname).of_mem c hc).1
    have hspace : " ".toList.filter isSymbolChar = [] := by decide
    rw [alternativeText, List.isEmpty_cons, if_neg Bool.false_ne_true, String.toList_intercalate,
      filter_intercalate, List.map_map, hkept, hspace, List.flatMap_def]
    exact intercalate_nil_left _

/-- The names of an alternative are found again in its text. -/
lemma map_singleton_flatMap {names : List String} (h : ∀ name ∈ names, Plain name) :
    (names.flatMap String.toList).map String.singleton = names := by
  induction names with
  | nil => rfl
  | cons name names ih =>
    obtain ⟨⟨c, rfl, _⟩, hnames⟩ := List.forall_mem_cons.1 h
    simp [ih hnames]

lemma filter_alternativesText {line : Line} (h : line.Legible) :
    line.alternativesText.toList.filter isSymbolChar =
      [alternativeSign].intercalate (line.alternatives.map (List.flatMap String.toList)) := by
  have hbar : " | ".toList.filter isSymbolChar = [alternativeSign] := by decide
  rw [alternativesText, String.toList_intercalate, filter_intercalate, hbar, List.map_map,
    List.map_map]
  exact congrArg _ (List.map_congr_left fun names hnames =>
    filter_alternativeText (h.names names hnames))

/-- What follows the arrow gives the alternatives back when it is split at the bars. -/
lemma map_symbolNames_splitOn {line : Line} (h : line.Legible) :
    (line.alternativesText.toList.splitOn alternativeSign).map symbolNames = line.alternatives := by
  have hbars : ∀ chars ∈ line.alternatives.map (List.flatMap String.toList),
      alternativeSign ∉ chars := by
    simp only [List.forall_mem_map, List.mem_flatMap]
    rintro names hmem ⟨name, hname, hbar⟩
    exact ((h.names names hmem name hname).of_mem _ hbar).2 rfl
  have hne : line.alternatives.map (List.flatMap String.toList) ≠ [] := by
    simpa using h.alternatives
  have hsplit : (line.alternativesText.toList.splitOn alternativeSign).map
      (List.filter isSymbolChar) = line.alternatives.map (List.flatMap String.toList) := by
    rw [← splitOn_filter (by decide), filter_alternativesText h,
      List.splitOn_intercalate alternativeSign hbars hne]
  calc (line.alternativesText.toList.splitOn alternativeSign).map symbolNames
      = ((line.alternativesText.toList.splitOn alternativeSign).map
          (List.filter isSymbolChar)).map (List.map String.singleton) := List.map_map.symm
    _ = line.alternatives.map fun names => (names.flatMap String.toList).map String.singleton := by
        rw [hsplit, List.map_map]
        rfl
    _ = line.alternatives.map id :=
        List.map_congr_left fun names hmem => map_singleton_flatMap (h.names names hmem)
    _ = line.alternatives := List.map_id _

/-- A line ends where its line break is. -/
lemma newline_not_mem_text {line : Line} (h : line.Legible) : '\n' ∉ line.text.toList := by
  have hplain : ∀ {name : String}, Plain name → ∀ c ∈ name.toList, c ≠ '\n' := by
    rintro name hname c hc rfl
    exact absurd (hname.of_mem _ hc).1 (by decide)
  have halternative : ∀ names ∈ line.alternatives, ∀ c ∈ (alternativeText names).toList,
      c ≠ '\n' := by
    intro names hnames
    unfold alternativeText
    split
    · simp [emptyWordSign]
    · rw [String.toList_intercalate]
      refine forall_mem_intercalate (by simp) ?_
      rw [List.forall_mem_map]
      exact fun name hname => hplain (h.names names hnames name hname)
  have halternatives : ∀ c ∈ line.alternativesText.toList, c ≠ '\n' := by
    rw [alternativesText, String.toList_intercalate]
    refine forall_mem_intercalate (by simp) ?_
    simpa only [List.forall_mem_map] using halternative
  intro hmem
  rw [text, String.toList_append, String.toList_append, List.mem_append, List.mem_append] at hmem
  rcases hmem with (hlhs | harrow) | hrest
  · exact hplain h.lhs _ hlhs rfl
  · exact absurd harrow (by decide)
  · exact halternatives _ hrest rfl

end Line

/-! ### Rules and lines that grow together -/

namespace Line

variable {lines more : List Line} {lhs : String} {table : NameTable} {rules : List Rule}

/-- Appends an alternative to the line of its name, which is created at the end if there is
none. -/
def add (lines : List Line) (lhs : String) (rhs : List String) : List Line :=
  match lines with
  | [] => [⟨lhs, [rhs]⟩]
  | line :: lines =>
    if line.lhs = lhs then { line with alternatives := line.alternatives ++ [rhs] } :: lines
    else line :: add lines lhs rhs

lemma add_append (h : ∀ line ∈ lines, line.lhs ≠ lhs) (more : List Line) (rhs : List String) :
    add (lines ++ more) lhs rhs = lines ++ add more lhs rhs := by
  induction lines with
  | nil => rfl
  | cons line lines ih =>
    obtain ⟨hline, hlines⟩ := List.forall_mem_cons.1 h
    rw [List.cons_append, add, if_neg hline, ih hlines, List.cons_append]

/-- The alternatives of a new name make one more line. -/
lemma foldl_add (h : ∀ line ∈ lines, line.lhs ≠ lhs) {rhss : List (List String)}
    (hrhss : rhss ≠ []) :
    rhss.foldl (fun lines rhs => add lines lhs rhs) lines = lines ++ [⟨lhs, rhss⟩] := by
  -- the first alternative makes the line, and every later one finds it at the end
  induction rhss using List.reverseRecOn with
  | nil => exact absurd rfl hrhss
  | append_singleton rhss rhs ih =>
    rw [List.foldl_append]
    cases rhss with
    | nil => simpa [add] using add_append h [] rhs
    | cons first rest =>
      rw [ih (List.cons_ne_nil first rest)]
      simp [add, add_append h]

/-- The names of a rule. -/
structure Spells (table : NameTable) (rule : Rule) (line : Line) : Prop where
  lhs : table.name? rule.lhs = some line.lhs
  alternatives : List.Forall₂ (List.Forall₂ fun symbol name => table.name? symbol = some name)
    rule.alternatives line.alternatives

lemma Spells.mono {extended : NameTable} (hextends : extended.Extends table) {rule : Rule}
    {line : Line} (h : Spells table rule line) : Spells extended rule line where
  lhs := hextends.name? h.lhs
  alternatives := h.alternatives.imp fun _ _ hrhs => hrhs.imp fun _ _ hname => hextends.name? hname

/-- A production is added to the lines where it is added to the rules. -/
lemma forall₂_spells_add {production : Production} {rhs : List String}
    (h : List.Forall₂ (Spells table) rules lines) (hlhs : table.name? production.lhs = some lhs)
    (hrhs : List.Forall₂ (fun symbol name => table.name? symbol = some name) production.rhs rhs) :
    List.Forall₂ (Spells table) (Rule.add rules production) (add lines lhs rhs) := by
  induction h with
  | nil => exact .cons ⟨hlhs, .cons hrhs .nil⟩ .nil
  | @cons rule line rules lines hspells hrest ih =>
    -- symbols and names tell the same nonterminals apart, so both searches stop together
    have hsame : rule.lhs = production.lhs ↔ line.lhs = lhs := by
      constructor
      · intro heq
        have hname := hspells.lhs
        rw [heq, hlhs] at hname
        exact (Option.some.inj hname).symm
      · rintro rfl
        exact NameTable.eq_of_name?_eq hspells.lhs hlhs
    rw [Rule.add, add]
    by_cases heq : line.lhs = lhs
    · rw [if_pos heq, if_pos (hsame.2 heq)]
      exact .cons ⟨hspells.lhs, List.rel_append hspells.alternatives (.cons hrhs .nil)⟩ hrest
    · rw [if_neg heq, if_neg fun hrule => heq (hsame.1 hrule)]
      exact .cons hspells ih

end Line

namespace Grammar

variable {g : Grammar} {lines more : List Line} {line : Line}

/-- The rules of the grammar in names. -/
def Spelled (g : Grammar) (lines : List Line) : Prop :=
  List.Forall₂ (Line.Spells g.names) g.rules lines

lemma Spelled.addProduction (h : g.Spelled lines) (lhs : String) (rhs : List String) :
    (g.addProduction lhs rhs).Spelled (Line.add lines lhs rhs) := by
  have hlhs := NameTable.name?_intern g.names lhs
  have hintern := NameTable.extends_intern g.names lhs
  have hall := NameTable.extends_internAll (g.names.intern lhs).2 rhs
  have hrhs := (NameTable.symbol?_internAll (g.names.intern lhs).2 rhs).flip
  exact Line.forall₂_spells_add
    (h.imp fun _ _ hspells => hspells.mono (hall.trans hintern)) (hall.name? hlhs)
    (hrhs.imp fun _ _ hsymbol => NameTable.symbol?_eq_some_iff.1 hsymbol)

lemma Spelled.foldl_addProduction (h : g.Spelled lines) (lhs : String)
    (rhss : List (List String)) : (rhss.foldl (fun g rhs => g.addProduction lhs rhs) g).Spelled
      (rhss.foldl (fun lines rhs => Line.add lines lhs rhs) lines) := by
  induction rhss generalizing g lines with
  | nil => exact h
  | cons rhs rhss ih => exact ih (h.addProduction lhs rhs)

/-- Adds the alternatives of a rule in names. -/
def addLine (g : Grammar) (line : Line) : Grammar :=
  line.alternatives.foldl (fun g rhs => g.addProduction line.lhs rhs) g

lemma Spelled.addLine (h : g.Spelled lines) (hnew : ∀ other ∈ lines, other.lhs ≠ line.lhs)
    (halternatives : line.alternatives ≠ []) : (g.addLine line).Spelled (lines ++ [line]) := by
  rw [← Line.foldl_add hnew halternatives]
  exact h.foldl_addProduction line.lhs line.alternatives

/-- Lines with names of their own are the rules of the grammar that they are added to. -/
lemma Spelled.foldl_addLine (h : g.Spelled lines)
    (hdistinct : ((lines ++ more).map Line.lhs).Nodup)
    (halternatives : ∀ line ∈ more, line.alternatives ≠ []) :
    (more.foldl Grammar.addLine g).Spelled (lines ++ more) := by
  induction more generalizing g lines with
  | nil => simpa using h
  | cons line more ih =>
    obtain ⟨hline, hmore⟩ := List.forall_mem_cons.1 halternatives
    have hnew : ∀ other ∈ lines, other.lhs ≠ line.lhs := by
      rw [List.map_append, List.nodup_append] at hdistinct
      exact fun other hother => hdistinct.2.2 _ (List.mem_map_of_mem hother) _
        (List.mem_map_of_mem List.mem_cons_self)
    rw [← List.singleton_append, ← List.append_assoc] at hdistinct ⊢
    exact ih (h.addLine hnew hline) hdistinct hmore

/-! ### The round trip -/

/-- Reads a line of a listing: the name in front of the arrow gets the alternatives behind it. -/
def readLine (g : Grammar) (line : List Char) : Option Grammar := do
  let rest ← (line.dropWhile (· != ' ')).dropPrefix? " → ".toList
  return g.addAlternatives (String.ofList (line.takeWhile (· != ' '))) (String.ofList rest)

/-- Reads a listing line by line. Every line ends with a line break, so nothing is behind the
last one. -/
def readListing (text : String) : Option Grammar :=
  (text.toList.splitOn '\n').dropLast.foldlM readLine {}

lemma addAlternatives_eq (g : Grammar) (lhs text : String) : g.addAlternatives lhs text =
    ((text.toList.splitOn alternativeSign).map symbolNames).foldl
      (fun g rhs => g.addProduction lhs rhs) g :=
  List.foldl_map.symm

lemma readLine_text (h : line.Legible) :
    g.readLine line.text.toList = some (g.addLine line) := by
  have hname : ∀ c ∈ line.lhs.toList, (c != ' ') = true := by
    intro c hc
    rw [bne_iff_ne]
    rintro rfl
    exact absurd (h.lhs.of_mem _ hc).1 (by decide)
  have htext : line.text.toList =
      line.lhs.toList ++ (" → ".toList ++ line.alternativesText.toList) := by
    rw [Line.text, String.toList_append, String.toList_append, List.append_assoc]
  have harrow : ∀ rest : List Char, (" → ".toList ++ rest).takeWhile (· != ' ') = [] ∧
      (" → ".toList ++ rest).dropWhile (· != ' ') = " → ".toList ++ rest := fun _ => ⟨rfl, rfl⟩
  rw [readLine, htext, List.takeWhile_append_of_pos hname, List.dropWhile_append_of_pos hname,
    (harrow _).1, (harrow _).2, List.append_nil, String.ofList_toList,
    List.dropPrefix?_append_of_beq _ BEq.rfl, Option.bind_eq_bind, Option.bind_some,
    addAlternatives_eq, String.toList_ofList, Line.map_symbolNames_splitOn h]
  rfl

lemma foldlM_readLine (h : ∀ line ∈ lines, line.Legible) :
    (lines.map fun line => line.text.toList).foldlM readLine g =
      some (lines.foldl Grammar.addLine g) := by
  induction lines generalizing g with
  | nil => rfl
  | cons line lines ih =>
    obtain ⟨hline, hlines⟩ := List.forall_mem_cons.1 h
    rw [List.map_cons, List.foldlM_cons, readLine_text hline, Option.bind_eq_bind,
      Option.bind_some, ih hlines, List.foldl_cons]

/-- A rule with names in the place of symbols. -/
def inNames (g : Grammar) (rule : Rule) : Line :=
  ⟨g.nameOr unnamed rule.lhs, rule.alternatives.map (List.map (g.nameOr unnamed))⟩

lemma ruleText_eq (g : Grammar) (rule : Rule) : g.ruleText rule = (g.inNames rule).text := by
  have halternative : ∀ rhs, g.alternativeText rhs =
      Line.alternativeText (rhs.map (g.nameOr unnamed)) := by
    intro rhs
    rw [alternativeText, Line.alternativeText, List.isEmpty_map]
  rw [ruleText, Line.text, Line.alternativesText, inNames, List.map_map]
  exact congrArg (fun texts => _ ++ " → " ++ " | ".intercalate texts)
    (List.map_congr_left fun rhs _ => halternative rhs)

lemma listing_eq (g : Grammar) :
    g.listing = String.join ((g.rules.map g.inNames).map fun line => line.text ++ "\n") := by
  rw [listing, List.map_map]
  exact congrArg String.join (List.map_congr_left fun rule _ => by
    rw [ruleText_eq, Function.comp_apply])

/-- The lines of a listing are the texts of its rules. -/
lemma splitOn_listing (h : ∀ rule ∈ g.rules, (g.inNames rule).Legible) :
    (g.listing.toList.splitOn '\n').dropLast =
      (g.rules.map g.inNames).map fun line => line.text.toList := by
  have hrows : g.listing.toList =
      ((g.rules.map g.inNames).map fun line => line.text.toList).flatMap (· ++ ['\n']) := by
    rw [listing_eq]
    generalize g.rules.map g.inNames = lines
    rw [String.toList_join, List.flatMap_map, List.flatMap_map]
    exact List.flatMap_congr fun line _ => String.toList_append
  rw [hrows, splitOn_flatMap_concat, List.dropLast_concat]
  simp only [List.forall_mem_map]
  exact fun rule hrule => Line.newline_not_mem_text (h rule hrule)

lemma name?_eq_nameOr {symbol : Symbol} (h : symbol.id < g.symbolCount) (unnamed : String) :
    g.name? symbol = some (g.nameOr unnamed symbol) := by
  obtain ⟨name, hname⟩ := Option.isSome_iff_exists.1 (NameTable.isSome_name?.2 h)
  exact hname.trans (congrArg some (nameOr_eq hname unnamed).symm)

lemma NamesAll.spells (h : g.NamesAll) : ∀ rule ∈ g.rules,
    Line.Spells g.names rule (g.inNames rule) := by
  intro rule hrule
  have hnamed : ∀ rhs ∈ rule.alternatives, rule.lhs.id < g.symbolCount ∧
      ∀ symbol ∈ rhs, symbol.id < g.symbolCount := fun rhs hrhs =>
    h ⟨rule.lhs, rhs⟩ (mem_productions.2 ⟨rule, hrule, rfl, hrhs⟩)
  constructor
  · obtain ⟨rhs, hrhs⟩ := List.exists_mem_of_ne_nil _ (g.inhabited rule hrule)
    exact name?_eq_nameOr (hnamed rhs hrhs).1 unnamed
  · rw [inNames, List.forall₂_map_right_iff, List.forall₂_same]
    intro rhs hrhs
    rw [List.forall₂_map_right_iff, List.forall₂_same]
    exact fun symbol hsymbol => name?_eq_nameOr ((hnamed rhs hrhs).2 symbol hsymbol) unnamed

lemma NamesAll.spelled (h : g.NamesAll) : g.Spelled (g.rules.map g.inNames) := by
  rw [Spelled, List.forall₂_map_right_iff, List.forall₂_same]
  exact h.spells

/-- The rules of a grammar with names for symbols. -/
def spelling (g : Grammar) : List (Option String × List (List (Option String))) :=
  g.rules.map fun rule => (g.name? rule.lhs, rule.alternatives.map (List.map g.name?))

lemma Spelled.spelling_eq (h : g.Spelled lines) : g.spelling = lines.map fun line =>
    (some line.lhs, line.alternatives.map (List.map some)) := by
  apply map_eq_of_forall₂
  rw [List.forall₂_map_right_iff]
  refine h.imp fun rule line hspells => Prod.ext hspells.lhs (map_eq_of_forall₂ ?_)
  rw [List.forall₂_map_right_iff]
  refine hspells.alternatives.imp fun rhs names hnames => map_eq_of_forall₂ ?_
  rwa [List.forall₂_map_right_iff]

/-- A listing tells how the grammar is spelled. -/
lemma Spelled.map_inNames (h : g.Spelled lines) : g.rules.map g.inNames = lines := by
  refine map_eq_of_forall₂ (h.imp fun rule line hspells => ?_)
  have halternatives : rule.alternatives.map (List.map (g.nameOr unnamed)) = line.alternatives :=
    map_eq_of_forall₂ (hspells.alternatives.imp fun rhs names hrhs =>
      map_eq_of_forall₂ (hrhs.imp fun symbol name hname => nameOr_eq hname unnamed))
  rw [inNames, nameOr_eq hspells.lhs, halternatives]

lemma NamesAll.legible (hnamed : g.NamesAll)
    (hplain : ∀ name ∈ g.names.entries, Line.Plain name) :
    ∀ rule ∈ g.rules, (g.inNames rule).Legible := by
  intro rule hrule
  obtain ⟨hlhs, halternatives⟩ := hnamed.spells rule hrule
  refine ⟨hplain _ (List.mem_of_getElem? hlhs), fun names hnames name hname => ?_, ?_⟩
  · obtain ⟨rhs, _, hrhs⟩ := exists_left_of_forall₂ halternatives names hnames
    obtain ⟨symbol, _, hsymbol⟩ := exists_left_of_forall₂ hrhs name hname
    exact hplain name (List.mem_of_getElem? hsymbol)
  · simpa [inNames] using g.inhabited rule hrule

/-- No two lines are for one name. -/
lemma NamesAll.nodup_lhs (h : g.NamesAll) : ((g.rules.map g.inNames).map Line.lhs).Nodup := by
  have hlhs : (g.rules.map g.inNames).map Line.lhs = g.nonterminals.map (g.nameOr unnamed) := by
    rw [List.map_map, nonterminals, List.map_map]
    rfl
  rw [hlhs]
  refine List.Nodup.map_on ?_ g.distinct
  simp only [nonterminals, List.forall_mem_map]
  intro rule hrule other hother hsame
  have hname := (h.spells rule hrule).lhs
  rw [inNames, hsame] at hname
  exact NameTable.eq_of_name?_eq hname (h.spells other hother).lhs

/-- A grammar is read back from its listing name by name, if its names are characters that grammar
text can express. -/
theorem readListing_listing (hnamed : g.NamesAll)
    (hplain : ∀ name ∈ g.names.entries, Line.Plain name) :
    ∃ back, readListing g.listing = some back ∧ back.spelling = g.spelling ∧
      back.listing = g.listing := by
  have hlegible := hnamed.legible hplain
  have halternatives : ∀ line ∈ g.rules.map g.inNames, line.alternatives ≠ [] := by
    rw [List.forall_mem_map]
    exact fun rule hrule => (hlegible rule hrule).alternatives
  have hempty : Spelled {} [] := .nil
  have hback := hempty.foldl_addLine hnamed.nodup_lhs halternatives
  rw [List.nil_append] at hback
  refine ⟨_, ?_, hback.spelling_eq.trans hnamed.spelled.spelling_eq.symm, ?_⟩
  · rw [readListing, splitOn_listing hlegible, foldlM_readLine]
    rw [List.forall_mem_map]
    exact hlegible
  · rw [listing_eq, listing_eq, hback.map_inNames]

/-- An arrow for a name, an alternative that is there twice, an empty one, and a name that was
interned before it was needed. -/
def arrowName : Grammar :=
  (((({} : Grammar).intern "c").2.addAlternatives "→" "a|").addAlternatives "S" "→c").addAlternatives
    "→" "a"

/-- The grammar that is read back has the names in another order. -/
theorem readListing_listing_arrowName :
    arrowName.listing = "→ → a | ε | a\nS → → c\n" ∧
      arrowName.names.entries = ["c", "→", "a", "S"] ∧
      ∃ back, readListing arrowName.listing = some back ∧
        back.names.entries = ["→", "a", "S", "c"] ∧
        back.spelling = [(some "→", [[some "a"], [], [some "a"]]),
          (some "S", [[some "→", some "c"]])] ∧
        back.listing = "→ → a | ε | a\nS → → c\n" := by
  have hnamed : arrowName.NamesAll := by
    unfold NamesAll
    decide +kernel
  have hlisting : arrowName.listing = "→ → a | ε | a\nS → → c\n" := by decide +kernel
  have hspelling : arrowName.spelling = [(some "→", [[some "a"], [], [some "a"]]),
      (some "S", [[some "→", some "c"]])] := by decide +kernel
  have hnames : arrowName.names.entries = ["c", "→", "a", "S"] := by decide +kernel
  have hplain : ∀ name ∈ arrowName.names.entries, Line.Plain name := by
    rw [hnames]
    simp only [List.forall_mem_cons]
    exact ⟨⟨'c', by decide⟩, ⟨'→', by decide⟩, ⟨'a', by decide⟩, ⟨'S', by decide⟩,
      List.forall_mem_nil _⟩
  have hrun : (readListing arrowName.listing).map (fun back => back.names.entries) =
      some ["→", "a", "S", "c"] := by decide +kernel
  obtain ⟨back, hback, hsame, htext⟩ := readListing_listing hnamed hplain
  rw [hback] at hrun
  exact ⟨hlisting, hnames, back, hback, Option.some.inj hrun, hsame.trans hspelling,
    htext.trans hlisting⟩

end Grammar

end ContextFree

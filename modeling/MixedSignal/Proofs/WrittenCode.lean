import MixedSignal.Proofs.FreshNames
import MixedSignal.Proofs.NodeCode
import MixedSignal.Verilog.Module

/-!
# Code as it is written

The text of a module has the lines of its statements in order, between a heading and an end
(`Module.text_eq`).

Integer operators are written as declarations and assignments, each on a line of words.
`Statement.read?` reads such a line, and finds the operands and the operator that were written
(`Statement.read?_declareInt`, `Statement.read?_assign`). An empty word has no top bit, so that it is
declared as a wider one (`declaredRepr`).
-/

namespace MixedSignal.Verilog

variable {R : Type} [Scalar R]

/-! ## Lines of a module -/

/-- The lines of a statement, as they stand in a module. -/
def Statement.written (t : Statement R) : List String :=
  t.lines.map fun (depth, line) => Indent.text ⟨depth + 1⟩ ++ line

/-- Lines one below the other. -/
def unlines (lines : List String) : String := String.join (lines.map (· ++ "\n"))

theorem unlines_append (lines lines' : List String) :
    unlines (lines ++ lines') = unlines lines ++ unlines lines' := by
  simp [unlines]

/-- Blocks of lines with an empty line between them. -/
theorem intercalate_unlines : ∀ blocks : List (List String),
    "\n".intercalate (blocks.map unlines) = unlines ([""].intercalate blocks)
  | [] => rfl
  | [b] => by simp
  | b :: c :: blocks => by
    have hrest := intercalate_unlines (c :: blocks)
    rw [List.map_cons] at hrest
    rw [List.map_cons, List.map_cons, String.intercalate_cons_cons, hrest,
      List.intercalate_cons_cons, unlines_append, unlines_append]
    rfl

theorem Statement.text_eq (t : Statement R) : t.text = unlines t.written := by
  simp [Statement.text, unlines, written, Indent.line, Function.comp_def]

theorem Statement.join_text (code : List (Statement R)) :
    String.join (code.map (·.text)) = unlines (code.flatMap written) := by
  induction code with
  | nil => rfl
  | cons t code ih =>
    rw [List.map_cons, String.join_cons, ih, text_eq, List.flatMap_cons, unlines_append]

namespace Module

/-- The lines of the body: those of the statements in order, with an empty line between blocks. -/
def bodyLines (m : Module R) : List String :=
  [""].intercalate ((m.blocks.filter (!·.isEmpty)).map (·.flatMap Statement.written))

/-- The text of a module has the lines of its statements in order. -/
theorem text_eq (m : Module R) :
    m.text = m.preamble ++ m.heading ++ unlines m.bodyLines ++
      "endmodule\n\n`default_nettype wire\n" := by
  rw [text, body, bodyLines, ← intercalate_unlines, List.map_map]
  simp only [Function.comp_def, Statement.join_text]

/-- Whatever empty lines are not, is counted by statements. -/
theorem countP_bodyLines (m : Module R) {p : String → Bool} (hp : p "" = false) :
    m.bodyLines.countP p = (m.blocks.flatten.flatMap Statement.written).countP p := by
  have hintercalate : ∀ blocks : List (List String),
      ([""].intercalate blocks).countP p = blocks.flatten.countP p := by
    intro blocks
    induction blocks with
    | nil => rfl
    | cons b blocks ih =>
      cases blocks with
      | nil => simp
      | cons c blocks =>
        rw [List.intercalate_cons_cons, List.countP_append, List.countP_append, ih,
          List.flatten_cons, List.countP_append]
        simp [hp]
  rw [bodyLines, hintercalate, ← List.flatMap_def, ← List.flatten_filter_not_isEmpty, ← List.flatMap_id,
    List.flatMap_assoc]
  rfl

end Module

/-! ## Words of a line -/

/-- The words of a line that a semicolon ends. -/
def wordsOf? (line : String) : Option (List String) :=
  match line.toList.reverse with
  | '\n' :: ';' :: rest =>
    some (((rest.reverse.splitOn ' ').dropWhile List.isEmpty).map String.ofList)
  | _ => none

theorem wordsOf?_line {word : String} {words : List String} (hword : word ≠ "")
    (h : ∀ w ∈ word :: words, Names.IsWord w) :
    wordsOf? (Indent.line ⟨1⟩ (" ".intercalate (word :: words) ++ ";")) = some (word :: words) := by
  -- the blanks in front are four empty words
  have hsplit : ([' '].intercalate (List.replicate 4 [] ++
      (word :: words).map String.toList)).splitOn ' ' =
        List.replicate 4 [] ++ (word :: words).map String.toList := by
    refine List.splitOn_intercalate ' ' (fun l hl => ?_) (by simp)
    rcases List.mem_append.1 hl with hl | hl
    · rw [List.eq_of_mem_replicate hl]
      exact List.not_mem_nil
    · obtain ⟨w, hw, rfl⟩ := List.mem_map.1 hl
      exact h w hw
  have htext : (Indent.line ⟨1⟩ (" ".intercalate (word :: words) ++ ";")).toList =
      [' '].intercalate (List.replicate 4 [] ++ (word :: words).map String.toList) ++ [';', '\n'] := by
    simp [Indent.line, Indent.text, Indent.unit, String.toList_intercalate, List.replicate_succ,
      List.intercalate_cons_cons]
  have hnonempty : word.toList.isEmpty = false := by simpa using hword
  rw [wordsOf?, htext, List.reverse_append]
  simp only [List.reverse_cons, List.reverse_nil, List.nil_append, List.cons_append,
    List.reverse_reverse, hsplit]
  simp [List.replicate_succ, List.dropWhile, hnonempty, Function.comp_def]

/-! ## Reading -/

/-- The width of a vector, from the number of its top bit. -/
def widthOf? (range : String) : Option Nat :=
  match range.toList with
  | '[' :: rest =>
    let digits := rest.takeWhile Char.isDigit
    if rest.drop digits.length = [':', '0', ']'] then some (Nat.ofDigitChars 10 digits 0 + 1)
    else none
  | _ => none

theorem widthOf?_range (n : Nat) : widthOf? ("[" ++ toString n ++ ":0]") = some (n + 1) := by
  have hdigits : (Nat.toDigits 10 n ++ [':', '0', ']']).takeWhile Char.isDigit =
      Nat.toDigits 10 n := by
    rw [List.takeWhile_append_of_pos fun c hc => Nat.isDigit_of_mem_toDigits (by decide) le_rfl hc]
    simp
  simp [widthOf?, hdigits, Nat.ofDigitChars_ten_toDigits]

/-- The words between separators. -/
def operandsOf? (separator : String) : List String → Option (List String)
  | [] => none
  | [a] => some [a]
  | a :: s :: rest => if s = separator then (operandsOf? separator rest).map (a :: ·) else none

theorem operandsOf?_intersperse (separator : String) : ∀ names ≠ [],
    operandsOf? separator (names.intersperse separator) = some names
  | [], h => absurd rfl h
  | [_], _ => rfl
  | a :: b :: names, _ => by
    have hrest := operandsOf?_intersperse separator (b :: names) (by simp)
    rw [List.intersperse_cons_cons, operandsOf?, if_pos rfl, hrest, Option.map_some]

/-- A choice between the two operands of a comparison. -/
def choiceOf? : List String → Option Source
  | [x, order, y, question, a, colon, b] => do
    let op ← [CompareOp.lt, .gt].find? (·.text = order)
    if x = "(" ++ a ∧ y = b ++ ")" ∧ question = "?" ∧ colon = ":" then some (.choose op a b) else none
  | _ => none

/-- A sum, a product or a choice. -/
def Source.read? (words : List String) : Option Source :=
  (operandsOf? "+" words).map .sum <|> (operandsOf? "*" words).map .product <|> choiceOf? words

namespace Source

/-- A sum or product of several operands, or the smaller or larger of two. -/
def IsArith : Source → Prop
  | sum names | product names => 2 ≤ names.length
  | choose op _ _ => op = .lt ∨ op = .gt
  | _ => False

/-- The words of a sum, a product or a choice. -/
def words : Source → List String
  | sum names => names.intersperse "+"
  | product names => names.intersperse "*"
  | choose op a b => ["(" ++ a, op.text, b ++ ")", "?", a, ":", b]
  | _ => []

variable {source : Source}

theorem intercalate_intersperse (separator : String) : ∀ names : List String,
    (" " ++ separator ++ " ").intercalate names = " ".intercalate (names.intersperse separator)
  | [] => rfl
  | [_] => by simp
  | a :: b :: names => by
    have hrest := intercalate_intersperse separator (b :: names)
    obtain ⟨c, rest, hcons⟩ : ∃ c rest, (b :: names).intersperse separator = c :: rest :=
      List.exists_cons_of_ne_nil (by cases names <;> simp)
    rw [String.intercalate_cons_cons, hrest, List.intersperse_cons_cons, hcons,
      String.intercalate_cons_cons, String.intercalate_cons_cons]
    simp only [String.append_assoc]

theorem text_eq_words (h : source.IsArith) : source.text = " ".intercalate source.words := by
  cases source with
  | sum names => exact intercalate_intersperse "+" names
  | product names => exact intercalate_intersperse "*" names
  | choose op a b => exact String.toList_inj.1 (by simp [text, words])
  | _ => exact h.elim

/-- The operands and the operator that were written are read. -/
theorem read?_words (h : source.IsArith) : read? source.words = some source := by
  cases source with
  | sum names =>
    have hne : names ≠ [] := by rintro rfl; simp [IsArith] at h
    simp [read?, words, operandsOf?_intersperse _ names hne]
  | product names =>
    obtain _ | ⟨a, _ | ⟨b, names⟩⟩ := names
    · simp [IsArith] at h
    · simp [IsArith] at h
    · have hread := operandsOf?_intersperse "*" (a :: b :: names) (by simp)
      rw [read?, words, hread, List.intersperse_cons_cons]
      rfl
  | choose op a b =>
    rcases h with rfl | rfl <;> simp [read?, words, operandsOf?, choiceOf?, CompareOp.text]
  | _ => exact h.elim

theorem isWord_intersperse {separator : String} (hseparator : Names.IsWord separator) :
    ∀ {names : List String}, (∀ x ∈ names, Names.IsWord x) →
      ∀ w ∈ names.intersperse separator, Names.IsWord w
  | [], h | [_], h => h
  | a :: b :: names, h => by
    obtain ⟨ha, hrest⟩ := List.forall_mem_cons.1 h
    rw [List.intersperse_cons_cons]
    exact List.forall_mem_cons.2 ⟨ha, List.forall_mem_cons.2 ⟨hseparator,
      isWord_intersperse hseparator hrest⟩⟩

theorem isWord_words (h : ∀ x ∈ source.operands, Names.IsWord x) :
    ∀ w ∈ source.words, Names.IsWord w := by
  cases source with
  | sum names => exact isWord_intersperse (by decide) h
  | product names => exact isWord_intersperse (by decide) h
  | choose op a b =>
    have ha : Names.IsWord a := h a (by simp [operands])
    have hb : Names.IsWord b := h b (by simp [operands])
    have hopen : Names.IsWord ("(" ++ a) := Names.IsWord.append (by decide) ha
    have hclose : Names.IsWord (b ++ ")") := hb.append (by decide)
    have horder : Names.IsWord op.text := by cases op <;> decide
    simpa only [words, List.forall_mem_cons] using
      ⟨hopen, horder, hclose, by decide, ha, by decide, hb, List.forall_mem_nil _⟩
  | _ => exact List.forall_mem_nil _

end Source

/-- The declaration of an integer, or the assignment of an integer operator. -/
def Statement.ofWords? : List String → Option (Statement R)
  | ["logic", range, name] => return .declareInt name ⟨.unsigned, ← widthOf? range⟩
  | ["logic", "signed", range, name] => return .declareInt name ⟨.signed, ← widthOf? range⟩
  | "assign" :: target :: "=" :: words => return .assign target (← Source.read? words)
  | _ => none

/-- A statement on a line of its own. -/
def Statement.read? (line : String) : Option (Statement R) := wordsOf? line >>= ofWords?

/-- The word that a declaration stands for. -/
def declaredRepr (r : IntRepr) : IntRepr := ⟨r.signedness, topBit r + 1⟩

theorem declaredRepr_eq {r : IntRepr} (h : 0 < r.width) : declaredRepr r = r := by
  obtain ⟨sg, width⟩ := r
  have hwidth : (if width = 0 then UInt64.size - 1 else width - 1) + 1 = width := by
    rw [if_neg (Nat.pos_iff_ne_zero.1 h), Nat.sub_add_cancel h]
  rw [declaredRepr, topBit, hwidth]

theorem width_le_declaredRepr (r : IntRepr) : r.width ≤ (declaredRepr r).width := by
  by_cases h : 0 < r.width
  · rw [declaredRepr_eq h]
  · omega

namespace Statement

theorem read?_text {t : Statement R} (word : String) (words : List String) (hword : word ≠ "")
    (h : ∀ w ∈ word :: words, Names.IsWord w)
    (htext : t.text = Indent.line ⟨1⟩ (" ".intercalate (word :: words) ++ ";")) :
    read? t.text = (ofWords? (word :: words) : Option (Statement R)) := by
  rw [htext, read?, wordsOf?_line hword h]
  rfl

theorem read?_declareInt {x : String} (hx : Names.IsWord x) (r : IntRepr) :
    read? (declareInt x r : Statement R).text =
      some (declareInt x (declaredRepr r) : Statement R) := by
  have hrange : Names.IsWord ("[" ++ toString (topBit r) ++ ":0]") :=
    (Names.IsWord.append (by decide) (Names.isWord_toString _)).append (by decide)
  obtain ⟨sg, width⟩ := r
  cases sg with
  | unsigned =>
    rw [read?_text "logic" ["[" ++ toString (topBit ⟨.unsigned, width⟩) ++ ":0]", x] (by decide)
      (by simpa only [List.forall_mem_cons] using ⟨by decide, hrange, hx, List.forall_mem_nil _⟩)
      (String.toList_inj.1 (by simp [text, lines, typeText, Indent.line]))]
    simp only [ofWords?, widthOf?_range]
    rfl
  | signed =>
    rw [read?_text "logic" ["signed", "[" ++ toString (topBit ⟨.signed, width⟩) ++ ":0]", x]
      (by decide)
      (by simpa only [List.forall_mem_cons] using
        ⟨by decide, by decide, hrange, hx, List.forall_mem_nil _⟩)
      (String.toList_inj.1 (by simp [text, lines, typeText, Indent.line]))]
    simp only [ofWords?, widthOf?_range]
    rfl

theorem read?_assign {target : String} (htarget : Names.IsWord target) {source : Source}
    (hsource : source.IsArith) (hoperands : ∀ x ∈ source.operands, Names.IsWord x) :
    read? (assign target source : Statement R).text = some (assign target source : Statement R) := by
  have hread := Source.read?_words hsource
  obtain ⟨word, words, hwords⟩ := List.exists_cons_of_ne_nil (l := source.words)
    (by rintro h; rw [h] at hread; exact Option.some_ne_none _ hread.symm)
  rw [read?_text "assign" (target :: "=" :: source.words) (by decide)
    (List.forall_mem_cons.2 ⟨by decide, List.forall_mem_cons.2 ⟨htarget,
      List.forall_mem_cons.2 ⟨by decide, Source.isWord_words hoperands⟩⟩⟩)
    (String.toList_inj.1 (by
      simp [text, lines, Source.text_eq_words hsource, hwords, Indent.line,
        String.toList_intercalate]))]
  simp [ofWords?, hread]

end Statement

end MixedSignal.Verilog

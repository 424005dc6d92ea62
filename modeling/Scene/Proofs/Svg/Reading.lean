import Mathlib.Data.List.Basic
import Scene.Svg.Reader

/-! Written markup is read back as it was. Escaped data holds no mark of markup, and white space is
all that indentation puts between tags. -/
namespace Scene.Svg
open Text

def EndsName (cs : Rest) : Prop := ∀ c ∈ cs.head?, isNameChar c = false

section
variable {c mark : Char} {cs rest : List Char} {name value : String}

theorem escapeChars_cons (c : Char) (cs : List Char) :
    escapeChars (c :: cs) = escapeChar c ++ escapeChars cs := rfl

theorem escapeChar_of_plain (hc : c ∉ ['&', '<', '>', '"', '\'']) : escapeChar c = [c] := by
  simp only [List.mem_cons, List.not_mem_nil, or_false, not_or] at hc
  simp [escapeChar, entities, List.lookup_cons, hc, beq_false_of_ne]

theorem escapeChar_mem_entities (hc : c ∈ ['&', '<', '>', '"', '\'']) :
    (c, escapeChar c) ∈ entities := by
  simp only [List.mem_cons, List.not_mem_nil, or_false] at hc
  rcases hc with rfl | rfl | rfl | rfl | rfl <;> decide

theorem decode?_escapeChar (c : Char) (cs : List Char) :
    decode? (escapeChar c ++ cs) = (decode? cs).map (c :: ·) := by
  by_cases hc : c ∈ ['&', '<', '>', '"', '\'']
  · simp only [List.mem_cons, List.not_mem_nil, or_false] at hc
    rcases hc with rfl | rfl | rfl | rfl | rfl <;> rfl
  · rw [escapeChar_of_plain hc, List.singleton_append]
    simp only [List.mem_cons, List.not_mem_nil, or_false, not_or] at hc
    rw [decode?]
    · simp [hc]
    all_goals simp [hc]

theorem decode?_escapeChars (cs : List Char) : decode? (escapeChars cs) = some cs := by
  induction cs with
  | nil => rfl
  | cons c cs ih =>
    rw [escapeChars_cons, decode?_escapeChar, ih]
    rfl

/-- No mark of markup but the one that entities begin with. -/
theorem not_mem_escapeChars (hmark : mark ∈ ['<', '>', '"', '\'']) : mark ∉ escapeChars cs := by
  intro hmem
  obtain ⟨c, -, hmem⟩ := List.mem_flatMap.mp hmem
  by_cases hc : c ∈ ['&', '<', '>', '"', '\'']
  · have hclean : ∀ p ∈ entities, p.2.all (· ∉ ['<', '>', '"', '\'']) = true := by decide
    exact of_decide_eq_true
      (List.all_eq_true.mp (hclean _ (escapeChar_mem_entities hc)) mark hmem) hmark
  · rw [escapeChar_of_plain hc, List.mem_singleton] at hmem
    exact hc (hmem ▸ List.mem_cons_of_mem '&' hmark)

theorem escapeChars_of_space (h : cs.all isSpace = true) : escapeChars cs = cs := by
  induction cs with
  | nil => rfl
  | cons c cs ih =>
    rw [List.all_cons, Bool.and_eq_true] at h
    rw [escapeChars_cons, ih h.2, escapeChar_of_plain, List.singleton_append]
    rintro hc
    simp only [List.mem_cons, List.not_mem_nil, or_false] at hc
    rcases hc with rfl | rfl | rfl | rfl | rfl <;> exact absurd h.1 (by decide)

theorem all_ne_mark (h : mark ∉ cs) : ∀ c ∈ cs, decide (c ≠ mark) = true := by
  rintro c hc
  simpa using ne_of_mem_of_not_mem hc h

theorem takeWhile_mark (h : mark ∉ cs) : (cs ++ mark :: rest).takeWhile (· ≠ mark) = cs := by
  rw [List.takeWhile_append_of_pos (all_ne_mark h)]
  simp

theorem dropWhile_mark (h : mark ∉ cs) :
    (cs ++ mark :: rest).dropWhile (· ≠ mark) = mark :: rest := by
  rw [List.dropWhile_append_of_pos (all_ne_mark h)]
  simp

theorem data?_escapeChars (mark : Char) (cs rest : List Char)
    (hmark : mark ∈ ['<', '>', '"', '\'']) :
    data? mark (escapeChars cs ++ mark :: rest) = some (cs, mark :: rest) := by
  have hnone : mark ∉ escapeChars cs := not_mem_escapeChars hmark
  rw [data?, takeWhile_mark hnone, dropWhile_mark hnone, decode?_escapeChars]
  rfl

theorem expect_append (ws cs : List Char) : expect ws (ws ++ cs) = some cs := by
  induction ws with
  | nil => rfl
  | cons w ws ih => rw [List.cons_append, expect, if_pos rfl, ih]

theorem skipSpace_of_ends (h : ∀ c ∈ cs.head?, isSpace c = false) : skipSpace cs = cs := by
  cases cs with
  | nil => rfl
  | cons c cs => rw [skipSpace, List.dropWhile_cons, if_neg (by simp [h c rfl])]

theorem isNameStart_of_space (hspace : isSpace c = true) : isNameStart c = false := by
  simp only [isSpace, Bool.or_eq_true, decide_eq_true_eq] at hspace
  rcases hspace with ((rfl | rfl) | rfl) | rfl <;> rfl

/-- What begins like a name does not begin with white space. -/
theorem skipSpace_of_name (hstart : cs.head?.any isNameStart = true) :
    skipSpace (' ' :: cs) = cs := by
  have hstay : skipSpace cs = cs := by
    refine skipSpace_of_ends fun c hc => ?_
    rw [Option.mem_def.mp hc] at hstart
    by_contra hspace
    rw [Option.any_some, isNameStart_of_space (eq_true_of_ne_false hspace)] at hstart
    cases hstart
  rw [skipSpace, List.dropWhile_cons_of_pos rfl]
  exact hstay

theorem head_name (hname : isName name = true) (cs : List Char) :
    (name.toList ++ cs).head?.any isNameStart = true := by
  rw [isName, Bool.and_eq_true] at hname
  cases hchars : name.toList with
  | nil => simp [hchars] at hname
  | cons c cs =>
    rw [hchars] at hname
    exact hname.1

theorem name?_append (hname : isName name = true) (hends : EndsName rest) :
    name? (name.toList ++ rest) = some (name, rest) := by
  have hall : ∀ c ∈ name.toList, isNameChar c = true := by
    rw [isName, Bool.and_eq_true, List.all_eq_true] at hname
    exact hname.2
  have hrest : rest.takeWhile isNameChar = [] ∧ rest.dropWhile isNameChar = rest := by
    cases rest with
    | nil => exact ⟨rfl, rfl⟩
    | cons c cs => simp [hends c rfl]
  rw [name?, if_pos (head_name hname rest), List.takeWhile_append_of_pos hall,
    List.dropWhile_append_of_pos hall, hrest.1, hrest.2, List.append_nil, String.ofList_toList]

theorem toList_attributeText (a : String × String) :
    (Markup.attributeText a).toList =
      ' ' :: (a.1.toList ++ '=' :: '"' :: (escapeChars a.2.toList ++ ['"'])) := by
  simp [Markup.attributeText, escape]

theorem attribute?_append {a : String × String} (hname : isName a.1 = true) :
    attribute? (a.1.toList ++ '=' :: '"' :: (escapeChars a.2.toList ++ '"' :: rest)) =
      some (a, rest) := by
  have hends : EndsName ('=' :: '"' :: (escapeChars a.2.toList ++ '"' :: rest)) := by
    intro c hc
    cases hc
    rfl
  rw [attribute?, name?_append hname hends]
  change ((data? '"' (escapeChars a.2.toList ++ '"' :: rest)).bind _) = _
  rw [data?_escapeChars '"' _ _ (by decide)]
  simp [expect]

def attributesText (attributes : List (String × String)) : List Char :=
  (String.join (attributes.map Markup.attributeText)).toList

theorem attributesText_cons (a : String × String) (attributes : List (String × String)) :
    attributesText (a :: attributes) ++ rest =
      ' ' :: (a.1.toList ++ '=' :: '"' ::
        (escapeChars a.2.toList ++ '"' :: (attributesText attributes ++ rest))) := by
  simp [attributesText, toList_attributeText]

theorem attributes?_append {attributes : List (String × String)}
    (hnames : ∀ a ∈ attributes, isName a.1 = true) (hrest : ∀ c ∈ rest.head?, isSpace c = false)
    {fuel : Nat} (hfuel : attributes.length < fuel) :
    attributes? fuel (attributesText attributes ++ rest) = some (attributes, rest) := by
  induction attributes generalizing fuel with
  | nil =>
    obtain ⟨fuel, rfl⟩ := Nat.exists_eq_succ_of_ne_zero (Nat.ne_of_gt hfuel)
    have hnone : rest.head?.any isSpace = false := by
      cases h : rest.head? with
      | none => rfl
      | some c => exact hrest c h
    change attributes? (fuel + 1) rest = _
    rw [attributes?, hnone, skipSpace_of_ends hrest]
    rfl
  | cons a attributes ih =>
    obtain ⟨fuel, rfl⟩ := Nat.exists_eq_succ_of_ne_zero (Nat.ne_of_gt (Nat.zero_lt_of_lt hfuel))
    have hname : isName a.1 = true := hnames a List.mem_cons_self
    have hread := ih (fun b hb => hnames b (List.mem_cons_of_mem a hb))
      (Nat.lt_of_succ_lt_succ hfuel)
    have hstart := head_name hname
      ('=' :: '"' :: (escapeChars a.2.toList ++ '"' :: (attributesText attributes ++ rest)))
    rw [attributesText_cons, attributes?, skipSpace_of_name hstart, hstart, attribute?_append hname]
    simp [isSpace, hread]

end

namespace Markup

/-- Markup that says the same when it is written down: names are names, no attribute is there twice,
and an element has a text or children, but not both. -/
inductive Readable : Markup → Prop
  | element {tag : String} {attributes : List (String × String)} {text : Option String}
    {children : List Markup} (htag : isName tag = true)
    (hnames : ∀ a ∈ attributes, isName a.1 = true) (hnodup : (attributes.map (·.1)).Nodup)
    (hcontent : text = none ∨ children = []) (hchildren : ∀ m ∈ children, m.Readable) :
    Readable (.element tag attributes text children)

def endTag (tag : String) : List Char := '<' :: '/' :: (tag.toList ++ ['>'])

def core (indent : Bool) (depth : Nat) : Markup → List Char
  | .element tag attributes text children =>
    let inside := match text, children with
      | none, [] => ['/', '>']
      | some t, [] => '>' :: (escapeChars t.toList ++ endTag tag)
      | _, _ :: _ =>
        '>' :: (escapeChars (text.getD "").toList ++ ((newline indent).toList ++
          ((writeAll indent (depth + 1) children).toList ++
            ((indentation indent depth).toList ++ endTag tag))))
    '<' :: (tag.toList ++ (attributesText attributes ++ inside))

variable {indent : Bool} {depth : Nat}

theorem toList_write (m : Markup) :
    (m.write indent depth).toList =
      (indentation indent depth).toList ++ (m.core indent depth ++ (newline indent).toList) := by
  obtain ⟨tag, attributes, text, children⟩ := m
  cases text <;> cases children <;>
    simp [write, core, openTag, attributesText, endTag, escape]

theorem isSpace_indentation (indent : Bool) (depth : Nat) :
    (indentation indent depth).toList.all isSpace = true := by
  cases indent with
  | false => rfl
  | true =>
    rw [indentation, if_pos rfl, String.pushn_eq_repeat_push]
    induction 2 * depth with
    | zero => rfl
    | succ n ih => simpa [Nat.repeat, isSpace] using ih

theorem isSpace_newline (indent : Bool) : (newline indent).toList.all isSpace = true := by
  cases indent <;> rfl

theorem toList_writeAll_cons (m : Markup) (ms : List Markup) :
    (writeAll indent depth (m :: ms)).toList =
      (indentation indent depth).toList ++ (m.core indent depth ++
        ((newline indent).toList ++ (writeAll indent depth ms).toList)) := by
  rw [writeAll, String.toList_append, toList_write, List.append_assoc, List.append_assoc]

/-- An element begins like a tag, and so neither like the end of content nor like a declaration. -/
theorem Readable.core_eq {m : Markup} (hm : m.Readable) (indent : Bool) (depth : Nat) :
    ∃ c cs, m.core indent depth = '<' :: c :: cs ∧ isNameStart c = true := by
  cases hm with
  | @element tag attributes text children htag =>
    have hstart := head_name htag []
    cases hchars : tag.toList with
    | nil => simp [hchars] at hstart
    | cons c cs =>
      obtain ⟨inside, hcore⟩ : ∃ inside, (Markup.element tag attributes text children).core indent
          depth = '<' :: (tag.toList ++ inside) := ⟨_, rfl⟩
      rw [hchars] at hstart hcore
      exact ⟨c, cs ++ inside, hcore, hstart⟩

theorem expect_tag {c w : Char} (hc : isNameStart c = true) (hw : isNameStart w = false)
    (ws cs : List Char) : expect ('<' :: w :: ws) ('<' :: c :: cs) = none := by
  have hne : w ≠ c := by
    rintro rfl
    rw [hc] at hw
    cases hw
  rw [expect, if_pos rfl, expect, if_neg hne]

def Reads (indent : Bool) (m : Markup) : Prop :=
  ∀ (depth fuel : Nat) (rest : Rest), (m.core indent depth).length ≤ fuel →
    element? fuel (m.core indent depth ++ rest) = some (m, rest)

theorem content?_data (data rest : List Char) (fuel : Nat) :
    content? (fuel + 1) (escapeChars data ++ '<' :: '/' :: rest) = some ((data, []), rest) := by
  rw [content?]
  change (data? '<' (escapeChars data ++ '<' :: '/' :: rest)).bind _ = _
  rw [data?_escapeChars '<' _ _ (by decide)]
  rfl

theorem content?_element {before cs cs' rest more : List Char} {m : Markup} {ms : List Markup}
    {fuel : Nat} (hbefore : before.all isSpace = true)
    (hopen : expect ['<', '/'] ('<' :: cs) = none)
    (hm : element? fuel ('<' :: cs) = some (m, cs'))
    (hms : content? fuel cs' = some ((more, ms), rest)) :
    content? (fuel + 1) (before ++ '<' :: cs) = some ((before ++ more, m :: ms), rest) := by
  have hdata : data? '<' (before ++ '<' :: cs) = some (before, '<' :: cs) := by
    have hread := data?_escapeChars '<' before cs (by decide)
    rwa [escapeChars_of_space hbefore] at hread
  rw [content?, hdata]
  simp [hopen, hm, hms]

/-- Children are read up to the end tag, with white space as the data between them. -/
theorem content?_writeAll {ms : List Markup} (hms : ∀ m ∈ ms, m.Readable ∧ m.Reads indent)
    {before after : List Char} (hbefore : before.all isSpace = true)
    (hafter : after.all isSpace = true) (rest : List Char) {fuel : Nat}
    (hfuel : (writeAll indent depth ms).toList.length < fuel) :
    ∃ data, data.all isSpace = true ∧
      content? fuel (before ++ ((writeAll indent depth ms).toList ++
        (after ++ '<' :: '/' :: rest))) = some ((data, ms), rest) := by
  induction ms generalizing before fuel with
  | nil =>
    obtain ⟨fuel, rfl⟩ := Nat.exists_eq_succ_of_ne_zero (Nat.ne_of_gt hfuel)
    have hspace : (before ++ after).all isSpace = true := by
      rw [List.all_append, hbefore, hafter]
      rfl
    have hread := content?_data (before ++ after) rest fuel
    rw [escapeChars_of_space hspace, List.append_assoc] at hread
    exact ⟨before ++ after, hspace, hread⟩
  | cons m ms ih =>
    obtain ⟨fuel, rfl⟩ := Nat.exists_eq_succ_of_ne_zero (Nat.ne_of_gt (Nat.zero_lt_of_lt hfuel))
    obtain ⟨hm, hreads⟩ := hms m List.mem_cons_self
    obtain ⟨c, cs, hcore, hc⟩ := hm.core_eq indent depth
    rw [toList_writeAll_cons] at hfuel ⊢
    simp only [List.length_append] at hfuel
    have hpositive : 0 < (m.core indent depth).length := by simp [hcore]
    obtain ⟨data, hdata, hcontent⟩ := ih (fun m' hm' => hms m' (List.mem_cons_of_mem m hm'))
      (isSpace_newline indent) (show (writeAll indent depth ms).toList.length < fuel by omega)
    have hspace : (before ++ (indentation indent depth).toList).all isSpace = true := by
      rw [List.all_append, hbefore, isSpace_indentation]
      rfl
    have hread := hreads depth fuel ((newline indent).toList ++
      ((writeAll indent depth ms).toList ++ (after ++ '<' :: '/' :: rest))) (by omega)
    rw [hcore, List.cons_append, List.cons_append] at hread
    have hall := content?_element hspace (expect_tag hc rfl _ _) hread hcontent
    refine ⟨before ++ (indentation indent depth).toList ++ data, ?_, by simpa [hcore] using hall⟩
    rw [List.all_append, hspace, hdata]
    rfl

def EndsTag (cs : Rest) : Prop := ∃ c cs', cs = c :: cs' ∧ (c = '/' ∨ c = '>')

theorem EndsTag.attributes {cs : Rest} (h : EndsTag cs) (attributes : List (String × String)) :
    EndsName (attributesText attributes ++ cs) := by
  intro c hc
  cases attributes with
  | nil =>
    obtain ⟨c', cs', rfl, hends⟩ := h
    obtain rfl : c' = c := Option.some.inj hc
    rcases hends with rfl | rfl <;> rfl
  | cons a attributes =>
    rw [attributesText_cons] at hc
    cases hc
    rfl

theorem length_attributesText (attributes : List (String × String)) :
    attributes.length ≤ (attributesText attributes).length := by
  induction attributes with
  | nil => exact Nat.zero_le _
  | cons a attributes ih =>
    have hlength := congrArg List.length (@attributesText_cons [] a attributes)
    simp only [List.append_nil, List.length_cons, List.length_append] at hlength ⊢
    omega

/-- The attributes of an element are read up to the end of its tag. -/
theorem EndsTag.attributes?_eq {attributes : List (String × String)} {inside : Rest}
    (h : EndsTag inside) (hnames : ∀ a ∈ attributes, isName a.1 = true) :
    attributes? (attributesText attributes ++ inside).length (attributesText attributes ++ inside) =
      some (attributes, inside) := by
  obtain ⟨c, cs, rfl, hc⟩ := h
  refine attributes?_append hnames (fun c' hc' => ?_) ?_
  · obtain rfl : c = c' := Option.some.inj hc'
    rcases hc with rfl | rfl <;> rfl
  · have hlength := length_attributesText attributes
    rw [List.length_append, List.length_cons]
    omega

/-- The front of an element up to the end of its attributes. -/
theorem element?_start {tag : String} {attributes : List (String × String)} {inside : Rest}
    (htag : isName tag = true) (hnames : ∀ a ∈ attributes, isName a.1 = true)
    (hnodup : (attributes.map (·.1)).Nodup) (hinside : EndsTag inside) (fuel : Nat) :
    element? (fuel + 1) ('<' :: (tag.toList ++ (attributesText attributes ++ inside))) =
      (match expect ['/', '>'] inside with
      | some cs => some (.element tag attributes none [], cs)
      | none => do
        let ((data, children), cs) ← content? fuel (← expect ['>'] inside)
        let cs ← expect tag.toList cs
        let cs ← expect ['>'] (skipSpace cs)
        let m ← enclose? tag attributes data children
        some (m, cs)) := by
  rw [element?]
  change (name? (tag.toList ++ (attributesText attributes ++ inside)) >>= _) = _
  rw [name?_append htag (hinside.attributes attributes)]
  change (attributes? (attributesText attributes ++ inside).length _ >>= _) = _
  rw [hinside.attributes?_eq hnames]
  exact if_pos hnodup

/-- An element with an end tag, read through its content. -/
theorem element?_content {tag : String} {attributes : List (String × String)}
    {inside data : List Char} {children : List Markup} {m : Markup} {rest : Rest} {fuel : Nat}
    (htag : isName tag = true) (hnames : ∀ a ∈ attributes, isName a.1 = true)
    (hnodup : (attributes.map (·.1)).Nodup)
    (hcontent : content? fuel inside = some ((data, children), tag.toList ++ '>' :: rest))
    (hm : enclose? tag attributes data children = some m) :
    element? (fuel + 1) ('<' :: (tag.toList ++ (attributesText attributes ++ '>' :: inside))) =
      some (m, rest) := by
  have hends : EndsTag ('>' :: inside) := ⟨'>', inside, rfl, .inr rfl⟩
  have hclose : expect ['>'] (skipSpace ('>' :: rest)) = some rest := rfl
  rw [element?_start htag hnames hnodup hends]
  simp only [expect, hcontent, hm, expect_append, hclose, Option.bind_eq_bind, Option.bind_some,
    if_true]
  rfl

/-- The reader undoes the writer on one element. -/
theorem Readable.reads {m : Markup} (hm : m.Readable) (indent : Bool) : m.Reads indent := by
  induction hm with
  | @element tag attributes text children htag hnames hnodup hcontent hchildren ih =>
    intro depth fuel rest hfuel
    obtain ⟨fuel, rfl⟩ : ∃ k, fuel = k + 1 :=
      Nat.exists_eq_succ_of_ne_zero (by rintro rfl; simp [core] at hfuel)
    cases children with
    | nil =>
      cases text with
      | none =>
        have hends : EndsTag ('/' :: '>' :: rest) := ⟨'/', '>' :: rest, rfl, .inl rfl⟩
        have hread := element?_start htag hnames hnodup hends fuel
        simpa [core, expect] using hread
      | some t =>
        obtain ⟨fuel, rfl⟩ : ∃ k, fuel = k + 1 :=
          Nat.exists_eq_succ_of_ne_zero (by rintro rfl; simp [core, endTag] at hfuel)
        have hread := element?_content htag hnames hnodup
          (content?_data t.toList (tag.toList ++ '>' :: rest) fuel) rfl
        simpa [core, endTag] using hread
    | cons m ms =>
      obtain rfl : text = none := hcontent.resolve_right (List.cons_ne_nil m ms)
      have hall : ∀ m' ∈ m :: ms, m'.Readable ∧ m'.Reads indent := fun m' hm' =>
        ⟨hchildren m' hm', ih m' hm'⟩
      have hroom : (writeAll indent (depth + 1) (m :: ms)).toList.length < fuel := by
        simp only [core, endTag, List.length_cons, List.length_append] at hfuel
        omega
      obtain ⟨data, hdata, hread⟩ := content?_writeAll hall (isSpace_newline indent)
        (isSpace_indentation indent depth) (tag.toList ++ '>' :: rest) hroom
      have hm : enclose? tag attributes data (m :: ms) =
          some (.element tag attributes none (m :: ms)) := by
        rw [enclose?, if_pos hdata]
      simpa [core, endTag, escapeChars] using element?_content htag hnames hnodup hread hm

theorem skipDeclaration?_declaration (cs : Rest) :
    skipDeclaration? (Document.declaration.toList ++ cs) = some cs := rfl

theorem skipSpace_append {ws : List Char} (hws : ws.all isSpace = true) (cs : Rest) :
    skipSpace (ws ++ cs) = skipSpace cs :=
  List.dropWhile_append_of_pos (List.all_eq_true.mp hws)

/-- A text that is written markup after an optional declaration is read as this markup. -/
theorem Readable.read?_write {m : Markup} (hm : m.Readable) (indent declared : Bool) :
    read? ((if declared then Document.declaration ++ newline indent else "") ++
      m.write indent 0) = some m := by
  obtain ⟨c, cs, hcore, hc⟩ := hm.core_eq indent 0
  -- what is left after the declaration: white space, the element, white space
  obtain ⟨before, hbefore, hdeclared⟩ : ∃ before : List Char, before.all isSpace = true ∧
      skipDeclaration? ((if declared then Document.declaration ++ newline indent else "") ++
        m.write indent 0).toList =
        some (before ++ (m.core indent 0 ++ (newline indent).toList)) := by
    cases declared with
    | true =>
      refine ⟨(newline indent).toList ++ (indentation indent 0).toList, ?_, ?_⟩
      · rw [List.all_append, isSpace_newline, isSpace_indentation]
        rfl
      · rw [if_pos rfl, String.toList_append, String.toList_append, List.append_assoc,
          skipDeclaration?_declaration, toList_write, List.append_assoc]
    | false =>
      have hstart : (m.write indent 0).toList =
          m.core indent 0 ++ (newline indent).toList := by
        rw [toList_write]
        cases indent <;> rfl
      refine ⟨[], rfl, ?_⟩
      rw [if_neg Bool.false_ne_true, String.empty_append, hstart, skipDeclaration?, hcore]
      rw [List.cons_append, List.cons_append, expect_tag hc rfl]
      rfl
  have hskip : skipSpace (before ++ (m.core indent 0 ++ (newline indent).toList)) =
      m.core indent 0 ++ (newline indent).toList := by
    rw [skipSpace_append hbefore, hcore]
    rfl
  have hread := hm.reads indent 0 (before ++ (m.core indent 0 ++ (newline indent).toList)).length
    (newline indent).toList (by simp only [List.length_append]; omega)
  rw [read?, hdeclared]
  simp only [Option.bind_eq_bind, Option.bind_some, hskip, hread, isSpace_newline, if_true]

end Markup
end Scene.Svg

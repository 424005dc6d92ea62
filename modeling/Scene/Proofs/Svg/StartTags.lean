import Scene.Proofs.Svg.Fidelity
import Scene.Proofs.Svg.Outline

/-! The start tags of a text. What is written of an element has one for each element below it, with
the attributes of that element. One that a tag has twice is `class`: set as an attribute, and written
again for added classes. -/
namespace Scene.Svg
open Text Relation

structure StartTag where
  name : String
  attributes : List (String × String)
  deriving DecidableEq, Repr

namespace StartTag

def keys (t : StartTag) : List String := t.attributes.map (·.1)

def Named (t : StartTag) : Prop := isName t.name = true ∧ ∀ a ∈ t.attributes, isName a.1 = true

end StartTag

def startTag? : Reader StartTag := fun cs => do
  let (name, cs) ← name? (← expect ['<'] cs)
  let (attributes, cs) ← attributes? cs.length cs
  some (⟨name, attributes⟩, cs)

/-- All start tags in a text, wherever they begin. -/
def startTags : List Char → List StartTag
  | [] => []
  | c :: cs =>
    match startTag? (c :: cs) with
    | some (t, _) => t :: startTags cs
    | none => startTags cs

section
variable {c : Char} {cs rest inside : List Char} {name : String}
  {attributes : List (String × String)}

theorem startTags_cons_of_ne (hc : c ≠ '<') (cs : List Char) :
    startTags (c :: cs) = startTags cs := by
  have hnone : startTag? (c :: cs) = none := by simp [startTag?, expect, hc.symm]
  rw [startTags, hnone]

/-- A tag begins with its mark. -/
theorem startTags_append_of_not_mem (h : '<' ∉ cs) (rest : List Char) :
    startTags (cs ++ rest) = startTags rest := by
  induction cs with
  | nil => rfl
  | cons c cs ih =>
    rw [List.mem_cons, not_or] at h
    rw [List.cons_append, startTags_cons_of_ne (Ne.symm h.1), ih h.2]

theorem not_mem_of_isName (h : isName name = true) : '<' ∉ name.toList := by
  rw [isName, Bool.and_eq_true, List.all_eq_true] at h
  exact fun hmem => absurd (h.2 _ hmem) (by decide)

theorem not_mem_of_isSpace (h : cs.all isSpace = true) : '<' ∉ cs := by
  rw [List.all_eq_true] at h
  exact fun hmem => absurd (h _ hmem) (by decide)

theorem not_mem_attributesText (h : ∀ a ∈ attributes, isName a.1 = true) :
    '<' ∉ attributesText attributes := by
  induction attributes with
  | nil => simp [attributesText]
  | cons a attributes ih =>
    have hname := not_mem_of_isName (h a List.mem_cons_self)
    have hvalue : '<' ∉ escapeChars a.2.toList := not_mem_escapeChars (by decide)
    have hrest := ih fun b hb => h b (List.mem_cons_of_mem a hb)
    have hchars := @attributesText_cons [] a attributes
    simp only [List.append_nil] at hchars
    simp [hchars, hname, hvalue, hrest]

theorem startTags_start (hname : isName name = true) (hnames : ∀ a ∈ attributes, isName a.1 = true)
    (hinside : Markup.EndsTag inside) :
    startTags ('<' :: (name.toList ++ (attributesText attributes ++ inside))) =
      ⟨name, attributes⟩ :: startTags inside := by
  have htag : startTag? ('<' :: (name.toList ++ (attributesText attributes ++ inside))) =
      some (⟨name, attributes⟩, inside) := by
    rw [startTag?]
    change (name? (name.toList ++ (attributesText attributes ++ inside)) >>= _) = _
    rw [name?_append hname (hinside.attributes attributes)]
    change (attributes? (attributesText attributes ++ inside).length _ >>= _) = _
    rw [hinside.attributes?_eq hnames]
    rfl
  rw [startTags, htag]
  dsimp only
  rw [startTags_append_of_not_mem (not_mem_of_isName hname),
    startTags_append_of_not_mem (not_mem_attributesText hnames)]

theorem startTags_endTag (hname : isName name = true) (rest : List Char) :
    startTags (Markup.endTag name ++ rest) = startTags rest := by
  have hnone : startTag? (Markup.endTag name ++ rest) = none := rfl
  rw [Markup.endTag, List.cons_append] at hnone ⊢
  rw [startTags, hnone]
  dsimp only
  rw [List.cons_append, startTags_cons_of_ne (by decide), List.append_assoc,
    startTags_append_of_not_mem (not_mem_of_isName hname)]
  exact startTags_cons_of_ne (by decide) rest

end

namespace Markup

mutual

def startTags : Markup → List StartTag
  | .element tag attributes _ children => ⟨tag, attributes⟩ :: startTagsAll children

def startTagsAll : List Markup → List StartTag
  | [] => []
  | m :: ms => startTags m ++ startTagsAll ms

end

theorem startTagsAll_eq_flatMap (ms : List Markup) : startTagsAll ms = ms.flatMap startTags := by
  induction ms with
  | nil => rfl
  | cons m ms ih => simp [startTagsAll, ih]

mutual

/-- The text of an element has its start tags, and no other. -/
theorem startTags_core (indent : Bool) (depth : Nat) : (m : Markup) →
    (∀ t ∈ m.startTags, t.Named) → (rest : List Char) →
      Svg.startTags (m.core indent depth ++ rest) = m.startTags ++ Svg.startTags rest
  | .element tag attributes text children, hnamed, rest => by
    obtain ⟨hname, hnames⟩ := hnamed ⟨tag, attributes⟩ List.mem_cons_self
    have hchildren := startTags_writeAll indent (depth + 1) children fun t ht =>
      hnamed t (List.mem_cons_of_mem _ ht)
    have hdata (cs : List Char) : '<' ∉ escapeChars cs := not_mem_escapeChars (by decide)
    have hskip {cs : List Char} (hspace : cs.all isSpace = true) (rest : List Char) :
        Svg.startTags (cs ++ rest) = Svg.startTags rest :=
      startTags_append_of_not_mem (not_mem_of_isSpace hspace) rest
    -- what stands behind the attributes has the start tags of the children
    have hall {inside : List Char} (hends : EndsTag inside)
        (hinside : Svg.startTags inside = startTagsAll children ++ Svg.startTags rest) :
        Svg.startTags ('<' :: (tag.toList ++ (attributesText attributes ++ inside))) =
          (element tag attributes text children).startTags ++ Svg.startTags rest := by
      rw [startTags_start hname hnames hends, hinside, startTags, List.cons_append]
    have hclose (cs : List Char) : EndsTag ('>' :: cs) := ⟨'>', cs, rfl, .inr rfl⟩
    cases children with
    | nil =>
      cases text with
      | none =>
        have hinside : Svg.startTags ('/' :: '>' :: rest) = Svg.startTags rest := by
          rw [startTags_cons_of_ne (by decide), startTags_cons_of_ne (by decide)]
        simpa [core] using hall ⟨'/', '>' :: rest, rfl, .inl rfl⟩ hinside
      | some t =>
        have hinside : Svg.startTags ('>' :: (escapeChars t.toList ++ (endTag tag ++ rest))) =
            Svg.startTags rest := by
          rw [startTags_cons_of_ne (by decide), startTags_append_of_not_mem (hdata _),
            startTags_endTag hname]
        simpa [core] using hall (hclose _) hinside
    | cons m ms =>
      have hinside : Svg.startTags ('>' :: (escapeChars (text.getD "").toList ++
          ((newline indent).toList ++ ((writeAll indent (depth + 1) (m :: ms)).toList ++
            ((indentation indent depth).toList ++ (endTag tag ++ rest)))))) =
          startTagsAll (m :: ms) ++ Svg.startTags rest := by
        rw [startTags_cons_of_ne (by decide), startTags_append_of_not_mem (hdata _),
          hskip (isSpace_newline indent), hchildren, hskip (isSpace_indentation indent depth),
          startTags_endTag hname]
      simpa [core] using hall (hclose _) hinside

theorem startTags_writeAll (indent : Bool) (depth : Nat) : (ms : List Markup) →
    (∀ t ∈ startTagsAll ms, t.Named) → (rest : List Char) →
      Svg.startTags ((writeAll indent depth ms).toList ++ rest) =
        startTagsAll ms ++ Svg.startTags rest
  | [], _, rest => rfl
  | m :: ms, hnamed, rest => by
    have hm := startTags_core indent depth m fun t ht =>
      hnamed t (List.mem_append_left _ ht)
    have hms := startTags_writeAll indent depth ms fun t ht =>
      hnamed t (List.mem_append_right _ ht)
    rw [toList_writeAll_cons, List.append_assoc,
      startTags_append_of_not_mem (not_mem_of_isSpace (isSpace_indentation indent depth)),
      List.append_assoc, hm, List.append_assoc,
      startTags_append_of_not_mem (not_mem_of_isSpace (isSpace_newline indent)), hms,
      startTagsAll, List.append_assoc]

end

end Markup

/-! The start tags of a document. -/

def Element.startTag (x : Element) (classPrefix : Option String) : StartTag :=
  ⟨x.tag, x.writtenAttributes classPrefix⟩

namespace Element
variable {x : Element} {classPrefix : Option String}

theorem keys_startTag (x : Element) (classPrefix : Option String) :
    (x.startTag classPrefix).keys =
      x.attributes.map (·.1) ++ if x.classes = [] then [] else ["class"] := by
  rw [startTag, StartTag.keys, Document.writtenAttributes_eq, List.map_append]
  split <;> rfl

theorem nodup_keys_iff (h : x.OnceNamed) : (x.startTag classPrefix).keys.Nodup ↔
    ¬ ("class" ∈ x.attributes.map (·.1) ∧ x.classes ≠ []) := by
  rw [keys_startTag, List.nodup_append]
  split
  · next hnone => exact iff_of_true ⟨h, List.nodup_nil, by simp⟩ fun hboth => hboth.2 hnone
  · next hsome =>
    refine ⟨fun hall hboth => hall.2.2 _ hboth.1 _ (List.mem_singleton_self _) rfl, fun hno => ?_⟩
    refine ⟨h, List.nodup_singleton _, fun key hkey key' hkey' heq => hno ⟨?_, hsome⟩⟩
    rwa [← List.mem_singleton.mp hkey', ← heq]

theorem count_keys_le (h : x.OnceNamed) {name : String} (hname : name ≠ "class") :
    (x.startTag classPrefix).keys.count name ≤ 1 := by
  have hclass : (if x.classes = [] then [] else ["class"]).count name = 0 := by
    split
    · rfl
    · rw [List.count_eq_zero, List.mem_singleton]
      exact hname
  rw [keys_startTag, List.count_append, hclass]
  exact List.nodup_iff_count_le_one.mp h name

end Element

def Edit.named : Edit → Bool
  | .createElement tag | .append _ tag => isName tag
  | .setAttribute _ name _ => isName name
  | _ => true

namespace Document
variable {d : Document} {edits : List Edit} {n : NodeId} {x : Element} {t : StartTag}
  {classPrefix : Option String} {k : Nat}

theorem Traced.startTag_named (h : Traced edits n x) (hnamed : ∀ e ∈ edits, e.named = true)
    (classPrefix : Option String) : (x.startTag classPrefix).Named := by
  have hkeys : ∀ name ∈ (x.startTag classPrefix).keys, isName name = true := by
    intro name hname
    rw [Element.keys_startTag, List.mem_append, h.named] at hname
    rcases hname with (⟨-, rfl⟩ | ⟨value, before, after, rfl, -⟩) | hclass
    · decide
    · exact hnamed (.setAttribute n name value) (by simp)
    · split at hclass
      · cases hclass
      · rw [List.mem_singleton.mp hclass]
        decide
  refine ⟨?_, fun a ha => hkeys a.1 (List.mem_map_of_mem ha)⟩
  rcases h.tag with htag | ⟨e, he, htag⟩
  · rw [Element.startTag, htag]
    exact (by decide : isName "svg" = true)
  · have hname := hnamed e he
    cases e <;> cases htag <;> exact hname

theorem exists_mem_iff_of_forall₂ {α β : Type} {as : List α} {bs : List β} {P : α → Prop}
    {Q : β → Prop} (h : List.Forall₂ (fun a b => P a ↔ Q b) as bs) :
    (∃ a ∈ as, P a) ↔ ∃ b ∈ bs, Q b := by
  induction h with
  | nil => simp
  | cons hab _ ih => simp only [List.exists_mem_cons_iff, hab, ih]

theorem subtree_startTags {r : Option Markup} (hr : d.subtree classPrefix k n = .ends r) :
    (∃ m ∈ r, t ∈ m.startTags) ↔
      ∃ a x, d.Below n a ∧ d.element? a = some x ∧ t = x.startTag classPrefix := by
  induction k generalizing n r with
  | zero => cases hr
  | succ k ih =>
    have hbelow (a : NodeId) : d.Below n a ↔ n = a ∨ ∃ c ∈ d.children n, d.Below c a :=
      ReflTransGen.cases_head_iff
    cases he : d.element? n with
    | none =>
      have hnone : d.children n = [] := by rw [children, he]
      rw [subtree, he] at hr
      cases hr
      refine iff_of_false (by simp) ?_
      rintro ⟨a, x, ha, hx, -⟩
      rw [hbelow, hnone] at ha
      simp only [List.not_mem_nil, false_and, exists_false, or_false] at ha
      rw [← ha, he] at hx
      cases hx
    | some e =>
      have hchildren : d.children n = e.children := by rw [children, he]
      obtain ⟨rs, hrs, rfl⟩ := subtree_succ_eq_ends he hr
      have hall := exists_mem_iff_of_forall₂ (hrs.imp fun c r hr => (ih hr).symm)
      have hrest : t ∈ Markup.startTagsAll (rs.filterMap id) ↔
          ∃ r ∈ rs, ∃ m ∈ r, t ∈ m.startTags := by
        simp [Markup.startTagsAll_eq_flatMap]
      simp only [Option.mem_def, Option.some.injEq, exists_eq_left', Markup.startTags, List.mem_cons,
        hrest]
      constructor
      · rintro (rfl | hbelow')
        · exact ⟨n, e, .refl, he, rfl⟩
        · obtain ⟨c, hc, a, x, ha, hx⟩ := hall.mpr hbelow'
          exact ⟨a, x, (hbelow a).mpr (.inr ⟨c, hchildren ▸ hc, ha⟩), hx⟩
      · rintro ⟨a, x, ha, hx, ht⟩
        rcases (hbelow a).mp ha with rfl | ⟨c, hc, ha⟩
        · rw [he] at hx
          cases hx
          exact .inl ht
        · exact .inr (hall.mp ⟨c, hchildren ▸ hc, a, x, ha, hx, ht⟩)

def Writes (d : Document) (settings : Settings.Writing) (n : NodeId) (text : String) : Prop :=
  d.fragmentText n settings = .ends text ∨ n = root ∧ d.text settings = .ends text

/-- A declaration is no start tag. -/
theorem startTags_heading (settings : Settings.Writing) (cs : List Char) :
    startTags ((heading settings).toList ++ cs) = startTags cs := by
  obtain ⟨rest, hrest, hdeclaration⟩ : ∃ rest, '<' ∉ rest ∧
      declaration.toList = '<' :: '?' :: rest := ⟨_, by decide, rfl⟩
  have hnone (cs : List Char) : startTag? ('<' :: '?' :: cs) = none := rfl
  rw [heading]
  split
  · have hnewline := not_mem_of_isSpace (Markup.isSpace_newline settings.indent)
    rw [String.toList_append, hdeclaration, List.append_assoc, List.cons_append, List.cons_append,
      startTags, hnone]
    dsimp only
    rw [startTags_cons_of_ne (by decide), startTags_append_of_not_mem hrest,
      startTags_append_of_not_mem hnewline]
  · rfl

theorem Writes.exists_fragment {settings : Settings.Writing} {text : String}
    (h : d.Writes settings n text) : ∃ body, d.fragmentText n settings = .ends body ∧
      startTags text.toList = startTags body.toList := by
  rcases h with h | ⟨rfl, h⟩
  · exact ⟨text, h, rfl⟩
  · rw [Document.text] at h
    cases hbody : d.fragmentText root settings with
    | endless =>
      rw [hbody] at h
      cases h
    | ends body =>
      rw [hbody] at h
      have htext : text = heading settings ++ body := (Walk.ends.inj h).symm
      exact ⟨body, rfl, by rw [htext, String.toList_append, startTags_heading]⟩

/-- The start tags of the text that is written of an element are those of its markup. -/
theorem mem_startTags_fragmentText {settings : Settings.Writing} {body : String}
    (h : d.fragmentText n settings = .ends body)
    (hnamed : ∀ a x, d.element? a = some x → (x.startTag settings.classPrefix).Named) :
    t ∈ startTags body.toList ↔ ∃ a x, d.Below n a ∧ d.element? a = some x ∧
      t = x.startTag settings.classPrefix := by
  rw [fragmentText] at h
  cases hr : d.markup settings.classPrefix n with
  | endless =>
    rw [hr] at h
    cases h
  | ends r =>
    rw [hr] at h
    cases h
    have hmem (t : StartTag) := subtree_startTags (t := t) hr
    rw [← hmem]
    cases r with
    | none => simp [startTags]
    | some m =>
      have hall : ∀ t ∈ m.startTags, t.Named := by
        intro t ht
        obtain ⟨a, x, -, hx, rfl⟩ := (hmem t).mp ⟨m, rfl, ht⟩
        exact hnamed a x hx
      have hspace := not_mem_of_isSpace (Markup.isSpace_indentation settings.indent 0)
      have hnewline := not_mem_of_isSpace (Markup.isSpace_newline settings.indent)
      have hend := startTags_append_of_not_mem hnewline []
      rw [List.append_nil] at hend
      rw [Markup.toList_write, startTags_append_of_not_mem hspace,
        m.startTags_core settings.indent 0 hall, hend]
      simp [startTags]

/-- Whatever edits led to a document, if they name tags and attributes by names: the start tags in a
text that is written of it are those of the elements in it, each with all its attributes. Nothing but
`class` is in a tag twice, and that only where the element was given it as an attribute and was given
a class too, in either order. -/
theorem attribute_twice_iff (edits : List Edit) (hnamed : ∀ e ∈ edits, e.named = true)
    (settings : Settings.Writing) (n : NodeId) (text : String)
    (htext : (edited edits).Writes settings n text) :
    (∀ t, t ∈ startTags text.toList ↔ ∃ a x, (edited edits).Below n a ∧
      (edited edits).element? a = some x ∧ t = x.startTag settings.classPrefix) ∧
    (∀ t ∈ startTags text.toList, ∀ name ≠ "class", t.keys.count name ≤ 1) ∧
    ((∀ t ∈ startTags text.toList, t.keys.Nodup) ↔
      ∀ a, (edited edits).Below n a →
        ¬ ((∃ value, Reached edits a (.setAttribute a "class" value)) ∧
          ∃ name, Reached edits a (.addClass a name))) := by
  obtain ⟨body, hbody, htags⟩ := htext.exists_fragment
  have htraced {a : NodeId} {x : Element} (hx : (edited edits).element? a = some x) :=
    traced_edited edits hx
  have hmem (t : StartTag) := mem_startTags_fragmentText (t := t) hbody fun a x hx =>
    (htraced hx).startTag_named hnamed settings.classPrefix
  simp only [htags, hmem]
  refine ⟨fun t => trivial, ?_, ?_⟩
  · rintro t ⟨a, x, -, hx, rfl⟩ name hname
    exact Element.count_keys_le (htraced hx).once hname
  · constructor
    · rintro honce a ha ⟨⟨value, hset⟩, hclass⟩
      obtain ⟨x, hx⟩ := Option.isSome_iff_exists.mp
        ((contains_eq_isSome _ a).symm.trans hset.contains)
      have hx' := htraced hx
      exact (Element.nodup_keys_iff hx'.once).mp (honce _ ⟨a, x, ha, hx, rfl⟩)
        ⟨(hx'.named "class").mpr (.inr ⟨value, hset⟩), hx'.classed.mpr hclass⟩
    · rintro hnone t ⟨a, x, ha, hx, rfl⟩
      have hx' := htraced hx
      refine (Element.nodup_keys_iff hx'.once).mpr fun ⟨hattribute, hclasses⟩ => hnone a ha ⟨?_, ?_⟩
      · exact ((hx'.named "class").mp hattribute).resolve_left (by simp)
      · exact hx'.classed.mp hclasses

def badged : List Edit :=
  [.append root "g", .setAttribute ⟨1⟩ "class" "old", .setAttribute ⟨1⟩ "class" "a",
    .append ⟨1⟩ "rect", .addClass ⟨2⟩ "b", .addClass ⟨2⟩ "c", .setAttribute ⟨2⟩ "id" "<b>"]

theorem badged_once : (∀ e ∈ badged, e.named = true) ∧ ∃ text,
    (edited badged).Writes .standard root text ∧
      (∀ t ∈ startTags text.toList, t.keys.Nodup) ∧
      ⟨"rect", [("id", "<b>"), ("class", "viz-b viz-c")]⟩ ∈ startTags text.toList := by
  have hnamed : ∀ e ∈ badged, e.named = true := by decide
  obtain ⟨text, htext⟩ : ∃ text, (edited badged).text .standard = .ends text := ⟨_, rfl⟩
  obtain ⟨hmem, -, honce⟩ :=
    attribute_twice_iff badged hnamed .standard root text (.inr ⟨rfl, htext⟩)
  refine ⟨hnamed, text, .inr ⟨rfl, htext⟩, honce.mpr ?_, (hmem _).mpr ?_⟩
  · rintro a - ⟨⟨value, before, after, hset, -⟩, name, before', after', hclass, -⟩
    have hset' : Edit.setAttribute a "class" value ∈ badged := by simp [hset]
    have hclass' : Edit.addClass a name ∈ badged := by simp [hclass]
    simp only [badged, List.mem_cons, List.not_mem_nil, or_false, Edit.setAttribute.injEq,
      Edit.addClass.injEq, reduceCtorEq, false_or] at hset' hclass'
    grind
  · have hg : (⟨1⟩ : NodeId) ∈ (edited badged).children root := by decide
    have hrect : (⟨2⟩ : NodeId) ∈ (edited badged).children ⟨1⟩ := by decide
    exact ⟨⟨2⟩, _, .tail (.single hg) hrect, rfl, by decide +kernel⟩

/-- The class that was set and the class that was added stand side by side, and no reader of markup
takes such a text. -/
theorem class_written_twice :
    (edited [.append root "rect", .setAttribute ⟨1⟩ "class" "a", .addClass ⟨1⟩ "b"]).text .compact =
      .ends "<svg xmlns=\"http://www.w3.org/2000/svg\"><rect class=\"a\" class=\"b\"/></svg>" ∧
    ⟨"rect", [("class", "a"), ("class", "b")]⟩ ∈ startTags
      "<svg xmlns=\"http://www.w3.org/2000/svg\"><rect class=\"a\" class=\"b\"/></svg>".toList ∧
    read? "<svg xmlns=\"http://www.w3.org/2000/svg\"><rect class=\"a\" class=\"b\"/></svg>" =
      none := by
  refine ⟨by decide +kernel, by decide +kernel, by decide +kernel⟩

/-- What is not a name can hold an attribute of its own. -/
example : (edited [.append root "rect", .setAttribute ⟨1⟩ "a=\"1\" a" "2"]).fragmentText ⟨1⟩
    .compact = .ends "<rect a=\"1\" a=\"2\"/>" := by
  decide +kernel

end Document
end Scene.Svg

import ModuleLowering.Proofs.Lowering.Naming
import ModuleLowering.Proofs.Role.Literals
import ModuleLowering.Proofs.Statement.StringLiteral

/-!
The properties of `exports` that lines of code define, read off their text: an assignment to the property by its name
or by a string, or a call that defines it.
-/

namespace ModuleLowering

open Text Lexeme

def literalAhead? : List Char → Option (String × List Char)
  | quote :: rest =>
    if quote = '"' || quote = '\'' then
      (stringLength quote rest).map fun n => (stringValue (String.ofList (quote :: rest.take n)), rest.drop n)
    else none
  | [] => none

def nameAhead? (text : List Char) : Option (String × List Char) :=
  let word := text.takeWhile (· != ' ')
  some (String.ofList (StringValue.unescape word), text.drop word.length)

def between? (opening closing : String) (read : List Char → Option (String × List Char)) (code : List Char) :
    Option String :=
  (opening.toList.isPrefixOf? code).bind fun rest =>
    (read rest).bind fun (name, rest) => if closing.toList.isPrefixOf rest then some name else none

def definedName? (code : String) : Option String :=
  between? "exports." " =" nameAhead? code.toList <|> between? "exports[" "] =" literalAhead? code.toList <|>
    between? "Object.defineProperty(exports, " ", " literalAhead? code.toList

theorem between?_eq {opening closing name : String} {read : List Char → Option (String × List Char)}
    {code ahead rest : List Char} (hcode : code = opening.toList ++ ahead)
    (hread : read ahead = some (name, closing.toList ++ rest)) : between? opening closing read code = some name := by
  rw [between?, List.isPrefixOf?_eq_some_iff_append_eq.2 hcode.symm, Option.bind_some, hread, Option.bind_some]
  exact if_pos (List.isPrefixOf_iff_prefix.2 (List.prefix_append ..))

theorem between?_eq_none {opening closing : String} {read : List Char → Option (String × List Char)}
    {code : List Char} (h : opening.toList.isPrefixOf? code = none) : between? opening closing read code = none := by
  rw [between?, h]
  rfl

theorem unescape_eq_self {text : List Char} (h : '\\' ∉ text) : StringValue.unescape text = text := by
  induction text with
  | nil => rw [StringValue.unescape]
  | cons c text ih =>
    rw [List.mem_cons, not_or] at h
    rw [StringValue.unescape_cons fun hc => h.1 hc.symm, ih h.2]

theorem nameAhead?_eq {name : List Char} (h : IsName name) (rest : List Char) :
    nameAhead? (name ++ ' ' :: rest) = some (String.ofList name, ' ' :: rest) := by
  have hword : (name ++ ' ' :: rest).takeWhile (· != ' ') = name := by
    rw [List.takeWhile_append_of_pos fun c hc => by simpa using h.ne hc (d := ' ') (by decide)]
    simp
  rw [nameAhead?, hword, unescape_eq_self fun hmem => h.ne hmem (d := '\\') (by decide) rfl, List.drop_left]

theorem literalAhead?_eq {raw : String} (h : IsLiteral raw.toList) (rest : List Char) :
    literalAhead? (raw.toList ++ rest) = some (stringValue raw, rest) := by
  obtain ⟨quote, body, hquote, hraw, hbody⟩ := h
  rw [hraw, List.cons_append, literalAhead?, if_pos (by simpa using hquote), hbody, Option.map_some, List.take_left,
    List.drop_left, ← hraw, String.ofList_toList]

namespace ModuleName

inductive IsSpelled : ModuleName → Prop
  | identifier {name : String} (h : IsName name.toList) : IsSpelled (.identifier name)
  | literal {raw : String} (h : IsLiteral raw.toList) : IsSpelled (.literal raw (stringValue raw))

theorem IsSpelled.isLiteral_quoted {n : ModuleName} (h : n.IsSpelled) : IsLiteral n.quoted.toList := by
  cases h with
  | @identifier name h =>
    rw [quoted, String.toList_append, String.toList_append]
    exact Lexeme.isLiteral_quoted h
  | literal h => exact h

theorem IsSpelled.value_quoted {n : ModuleName} (h : n.IsSpelled) : stringValue n.quoted = n.value := by
  cases h with
  | @identifier name h =>
    have hquoted : (quoted (ModuleName.identifier name)).toList = '"' :: (name.toList ++ ['"']) := by
      rw [quoted, String.toList_append, String.toList_append]
      rfl
    rw [stringValue, hquoted, List.drop_one, List.tail_cons, List.dropLast_concat,
      unescape_eq_self fun hmem => h.ne hmem (d := '\\') (by decide) rfl, String.ofList_toList]
    rfl
  | literal h => rfl

theorem IsSpelled.definedName?_accessOn {n : ModuleName} (h : n.IsSpelled) {code : String} (rest : List Char)
    (hcode : code.toList = (n.accessOn "exports").toList ++ (' ' :: '=' :: rest)) :
    definedName? code = some n.value := by
  rw [definedName?, hcode]
  cases h with
  | @identifier name h =>
    have hread := nameAhead?_eq h ('=' :: rest)
    rw [between?_eq (by simp [accessOn]) hread]
    simp [value]
  | @literal raw h =>
    have hread := literalAhead?_eq h (']' :: ' ' :: '=' :: rest)
    rw [between?_eq_none (by simp [accessOn, List.isPrefixOf?]),
      between?_eq (by simp [accessOn]) hread]
    rfl

end ModuleName

namespace Line

variable {n : ModuleName}

theorem definedName?_assignment (h : n.IsSpelled) (value : String) :
    definedName? (assignment n value).render = some n.value := by
  refine h.definedName?_accessOn (' ' :: (value.toList ++ [';'])) ?_
  change (n.accessOn "exports" ++ " = " ++ value ++ ";").toList = _
  simp

theorem definedName?_initializer (h : n.IsSpelled) : definedName? (initializer n).render = some n.value := by
  refine h.definedName?_accessOn [] ?_
  change (n.accessOn "exports" ++ " =").toList = _
  simp

theorem toList_render_getter (n : ModuleName) (access : Access) : ∃ rest, (getter n access).render.toList =
    "Object.defineProperty(exports, ".toList ++ (n.quoted.toList ++ (',' :: ' ' :: rest)) := by
  have hrender : (getter n access).render = "Object.defineProperty(exports, " ++ n.quoted ++
      ", \x7b enumerable: true, get: function () \x7b return " ++ access.render ++ "; \x7d \x7d);" := rfl
  rw [hrender]
  simp only [String.toList_append, List.append_assoc]
  exact ⟨_, rfl⟩

theorem definedName?_getter (h : n.IsSpelled) (access : Access) :
    definedName? (getter n access).render = some n.value := by
  obtain ⟨rest, hcode⟩ := toList_render_getter n access
  rw [definedName?, hcode, between?_eq_none (by simp [List.isPrefixOf?]), between?_eq_none (by simp [List.isPrefixOf?]),
    between?_eq rfl (literalAhead?_eq h.isLiteral_quoted (',' :: ' ' :: rest)), h.value_quoted]
  rfl

theorem definedName?_eq_none {code : String} {c : Char} (hcode : code.toList.head? = some c) (he : c ≠ 'e')
    (hO : c ≠ 'O') : definedName? code = none := by
  obtain ⟨rest, hcode⟩ := List.head?_eq_some_iff.1 hcode
  rw [definedName?, hcode, between?_eq_none (by simp [List.isPrefixOf?, he.symm]),
    between?_eq_none (by simp [List.isPrefixOf?, he.symm]), between?_eq_none (by simp [List.isPrefixOf?, hO.symm])]
  rfl

theorem definedName?_linesOf {rs : Requirements} {r : Requirement} {line : Line} (h : line ∈ rs.linesOf r) :
    definedName? line.render = none := by
  have hrequire (literal : String) : definedName? (require literal).render = none := by
    refine definedName?_eq_none (c := 'r') ?_ (by decide) (by decide)
    change ("require(" ++ literal ++ ");").toList.head? = _
    simp
  have hvariable (holder value : String) : definedName? ("var " ++ holder ++ value) = none :=
    definedName?_eq_none (c := 'v') (by simp) (by decide) (by decide)
  have hdeclare (holder literal : String) : definedName? (declare holder literal).render = none := by
    change definedName? ("var " ++ holder ++ " = require(" ++ literal ++ ");") = none
    rw [String.append_assoc, String.append_assoc]
    exact hvariable ..
  have hinterop (holder helper source : String) : definedName? (interop holder helper source).render = none := by
    change definedName? ("var " ++ holder ++ " = " ++ helper ++ "(" ++ source ++ ");") = none
    rw [String.append_assoc, String.append_assoc, String.append_assoc, String.append_assoc]
    exact hvariable ..
  cases Requirements.writesFor_of_mem h with
  | require => exact hrequire _
  | declare => exact hdeclare ..
  | ofDefault | ofNamespace => exact hinterop ..

theorem definedName?_linesAt {rs : Requirements} {specifier : String} {offset : Nat} {line : Line}
    (h : line ∈ (rs.linesAt specifier offset).getD []) : definedName? line.render = none := by
  obtain ⟨_, _, h⟩ := Requirements.exists_of_linesAt h
  exact definedName?_linesOf h

theorem definedName?_terminator : definedName? terminator.render = none := by decide +kernel

end Line

def Change.definedNames (c : Change) : List String := c.lines.filterMap fun line => definedName? line.render

end ModuleLowering

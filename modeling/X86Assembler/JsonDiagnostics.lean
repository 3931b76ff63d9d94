import Mathlib.Data.List.Forall2
import X86Assembler.JsonEscape
import X86Assembler.Lexer
import X86Assembler.Library.JsonObject

namespace X86Assembler.JsonDiagnostics

open CString (Byte str decimal)
open JsonEscape JsonObject

/-- What a diagnostic says, in C strings; an empty suggestion stands for none. -/
structure Said where
  category : List Byte
  message : List Byte
  suggestion : List Byte
  no_nul : 0 ∉ category ++ message ++ suggestion

/-- What `esc_cat`, `esc_msg` and `esc_sug` hold before they are written. -/
structure EscapeArrays where
  cat : Nat → Byte
  msg : Nat → Byte
  sug : Nat → Byte

/-- `%s` of an array that `json_escape_string` has filled. -/
def escaped (input : List Byte) (out : Nat → Byte) (outSize : Nat) : List Byte :=
  CString.untilNul ((List.range outSize).map (jsonEscapeString input out outSize).2)

def jsonDiagnostic (a : EscapeArrays) (severity : List Byte) (line column : Nat) (d : Said) :
    List Byte :=
  str "\x7b\"severity\":\"" ++ severity ++ str "\",\"line\":" ++ decimal line ++
    str ",\"column\":" ++ decimal column ++ str ",\"category\":\"" ++ escaped d.category a.cat 256 ++
    str "\",\"message\":\"" ++ escaped d.message a.msg 2048 ++ str "\"" ++
    (if d.suggestion ≠ [] then
      str ",\"suggestion\":\"" ++ escaped d.suggestion a.sug 2048 ++ str "\"" else []) ++
    str "\x7d\n"

def parserErrorContextEx (a : EscapeArrays) (lx : Lexer) (d : Said) : List Byte :=
  jsonDiagnostic a (str "error") lx.line lx.column d

def contextLine (lineNumber : Int) : Nat := if lineNumber > 0 then lineNumber.toNat else 1

def parserDiagCtx (a : EscapeArrays) (lineNumber : Int) (d : Said) : List Byte :=
  jsonDiagnostic a (str "error") (contextLine lineNumber) 1 d

def parserWarnCtx (a : EscapeArrays) (warningsAsErrors : Bool) (lineNumber : Int) (d : Said) :
    List Byte :=
  jsonDiagnostic a (if warningsAsErrors then str "error" else str "warning")
    (contextLine lineNumber) 1 d

theorem escapeByte_facts : ∀ c : Byte, c ≠ 0 → (escapeByte c).length ≤ 6 ∧ 0 ∉ escapeByte c := by
  decide +kernel

theorem length_escaped_le {input : List Byte} (h : 0 ∉ input) :
    (input.flatMap escapeByte).length ≤ 6 * input.length := by
  induction input with
  | nil => exact Nat.le_refl _
  | cons c input ih =>
      have hc := (escapeByte_facts c fun hzero => h (hzero ▸ List.mem_cons_self)).1
      have hinput := ih fun hmem => h (List.mem_cons_of_mem _ hmem)
      rw [List.flatMap_cons, List.length_append, List.length_cons]
      omega

theorem zero_notMem_escaped {input : List Byte} (h : 0 ∉ input) :
    0 ∉ input.flatMap escapeByte := by
  intro hmem
  obtain ⟨c, hc, hzero⟩ := List.mem_flatMap.mp hmem
  exact (escapeByte_facts c fun hzero => h (hzero ▸ hc)).2 hzero

/-- What is read of a text that is escaped into an array of a size. -/
structure Cut (outSize : Nat) (text read : List Byte) : Prop where
  beginning : read <+: text
  whole : 6 * text.length < outSize → read = text

theorem untilNul_array {f : Nat → Byte} {bs : List Byte} (hbs : 0 ∉ bs)
    (hwritten : (List.range bs.length).map f = bs) (hend : f bs.length = 0) {size : Nat}
    (hfits : bs.length < size) : CString.untilNul ((List.range size).map f) = bs := by
  obtain ⟨more, rfl⟩ : ∃ more, size = bs.length + (more + 1) :=
    ⟨size - bs.length - 1, by omega⟩
  have hpos : ∀ b ∈ bs, (b != 0) = true := by
    intro b hb
    exact bne_iff_ne.mpr fun hz => hbs (hz ▸ hb)
  rw [List.range_add, List.map_append, hwritten, CString.untilNul,
    List.takeWhile_append_of_pos hpos, List.range_succ_eq_map, List.map_cons, List.map_cons,
    Nat.add_zero, hend, List.takeWhile_cons_of_neg (by decide), List.append_nil]

theorem jsonEscapeString_bytes {input : List Byte} {out : Nat → Byte} {outSize : Nat}
    {bs : List Byte} (hrun : escapeLoop outSize input ⟨out, 0⟩ = Cells.putAll ⟨out, 0⟩ bs)
    (hfits : bs.length < outSize) :
    (List.range bs.length).map (jsonEscapeString input out outSize).2 = bs ∧
      (jsonEscapeString input out outSize).2 bs.length = 0 := by
  have hlen : (escapeLoop outSize input ⟨out, 0⟩).len = bs.length := by
    rw [hrun, Cells.putAll_len]
    exact Nat.zero_add _
  have hmemory : (jsonEscapeString input out outSize).2 =
      Function.update (Cells.putAll ⟨out, 0⟩ bs).bytes bs.length 0 := by
    rw [jsonEscapeString]
    simp only [hlen]
    rw [if_pos hfits, hrun]
  have hbetween := Cells.putAll_between ⟨out, 0⟩ bs
  change Cells.between _ 0 (0 + bs.length) = bs at hbetween
  rw [Nat.zero_add, Cells.between, Nat.sub_zero, ← List.range_eq_range'] at hbetween
  rw [hmemory]
  refine ⟨Eq.trans ?_ hbetween, Function.update_self _ _ _⟩
  apply List.map_congr_left
  intro i hi
  exact Function.update_of_ne (Nat.ne_of_lt (List.mem_range.mp hi)) _ _

theorem escaped_eq {input : List Byte} (h : 0 ∉ input) (out : Nat → Byte) {outSize : Nat}
    (hsize : 1 ≤ outSize) :
    ∃ read, Cut outSize input read ∧ escaped input out outSize = read.flatMap escapeByte := by
  obtain ⟨k, hrun, hfits, hwhole⟩ := @escapeLoop_eq outSize input ⟨out, 0⟩ hsize
  refine ⟨input.take k, ⟨List.take_prefix k input, ?_⟩, ?_⟩
  · intro hlen
    have hle := length_escaped_le h
    apply hwhole
    change 0 + _ < outSize
    omega
  · have hroom : ((input.take k).flatMap escapeByte).length < outSize := by
      rwa [← Nat.zero_add ((input.take k).flatMap escapeByte).length]
    obtain ⟨hwritten, hend⟩ := jsonEscapeString_bytes hrun hroom
    exact untilNul_array (zero_notMem_escaped fun hmem => h (List.mem_of_mem_take hmem)) hwritten
      hend hroom

theorem hexChar_facts : ∀ c : Byte,
    (hexChar (c >>> 4).toNat ≠ 0x22 ∧ hexChar (c >>> 4).toNat ≠ 0x5C) ∧
      hexChar (c &&& 0x0F).toNat ≠ 0x22 ∧ hexChar (c &&& 0x0F).toNat ≠ 0x5C := by
  decide +kernel

theorem body_escapeByte (c : Byte) (text : List Byte) :
    body (escapeByte c ++ text) = (body text).map fun r => (escapeByte c ++ r.1, r.2) := by
  rw [escapeByte]
  by_cases hshort : c = 0x22 ∨ c = 0x5C
  · rw [if_pos hshort]
    exact body_escape c text
  rw [if_neg hshort]
  rw [not_or] at hshort
  by_cases hcontrol : c < 0x20
  · obtain ⟨⟨hq, hs⟩, hq', hs'⟩ := hexChar_facts c
    rw [if_pos hcontrol]
    show body (0x5C :: 0x75 :: 0x30 :: 0x30 :: hexChar (c >>> 4).toNat ::
      hexChar (c &&& 0x0F).toNat :: text) = _
    rw [body_escape, body_plain (by decide) (by decide), body_plain (by decide) (by decide),
      body_plain hq hs, body_plain hq' hs', Option.map_map, Option.map_map, Option.map_map,
      Option.map_map]
    rfl
  · rw [if_neg hcontrol]
    exact body_plain hshort.1 hshort.2 text

theorem spells_escaped (input : List Byte) : Spells (input.flatMap escapeByte) input := by
  refine ⟨fun rest => ?_, decode_escaped input⟩
  induction input with
  | nil => exact body_quote rest
  | cons c input ih =>
      rw [List.flatMap_cons, List.append_assoc, body_escapeByte, ih]
      rfl

theorem spells_plain {text : List Byte} (h : text.flatMap escapeByte = text) : Spells text text := by
  have hspells := spells_escaped text
  rwa [h] at hspells

def ReadsAs (severity : List Byte) (line column : Nat) (d : Said) (ms : Members) : Prop :=
  ∃ category message suggestion, Cut 256 d.category category ∧ Cut 2048 d.message message ∧
    Cut 2048 d.suggestion suggestion ∧
    ms = [(str "severity", .string severity), (str "line", .number line),
      (str "column", .number column), (str "category", .string category),
      (str "message", .string message)] ++
      if d.suggestion ≠ [] then [(str "suggestion", .string suggestion)] else []

def member (key : String) (text : List Byte) : List Byte := quote (str key) ++ 0x3A :: text

def memberTexts (severity : List Byte) (line column : Nat) (category message : List Byte) :
    List (List Byte) :=
  [member "severity" (quote severity), member "line" (decimal line),
    member "column" (decimal column), member "category" (quote category),
    member "message" (quote message)]

theorem jsonDiagnostic_eq (a : EscapeArrays) (severity : List Byte) (line column : Nat) (d : Said) :
    jsonDiagnostic a severity line column d =
      objectText (memberTexts severity line column (escaped d.category a.cat 256)
        (escaped d.message a.msg 2048) ++
        if d.suggestion ≠ [] then [member "suggestion" (quote (escaped d.suggestion a.sug 2048))]
        else []) ++ [0x0A] := by
  have hopen : str "\x7b\"severity\":\"" = 0x7B :: (quote (str "severity") ++ [0x3A, 0x22]) := by
    decide +kernel
  have hline : str "\",\"line\":" = 0x22 :: 0x2C :: (quote (str "line") ++ [0x3A]) := by
    decide +kernel
  have hcolumn : str ",\"column\":" = 0x2C :: (quote (str "column") ++ [0x3A]) := by
    decide +kernel
  have hcat : str ",\"category\":\"" = 0x2C :: (quote (str "category") ++ [0x3A, 0x22]) := by
    decide +kernel
  have hmsg : str "\",\"message\":\"" =
      0x22 :: 0x2C :: (quote (str "message") ++ [0x3A, 0x22]) := by
    decide +kernel
  have hsug : str ",\"suggestion\":\"" = 0x2C :: (quote (str "suggestion") ++ [0x3A, 0x22]) := by
    decide +kernel
  have hquote : str "\"" = [0x22] := by decide +kernel
  have hclose : str "\x7d\n" = [0x7D, 0x0A] := by decide +kernel
  by_cases hnone : d.suggestion ≠ []
  · rw [jsonDiagnostic, if_pos hnone, if_pos hnone, hopen, hline, hcolumn, hcat, hmsg, hsug, hquote,
      hclose]
    simp only [objectText, memberTexts, membersText, member, quote, List.cons_append,
      List.append_assoc, List.nil_append]
  · rw [jsonDiagnostic, if_neg hnone, if_neg hnone, hopen, hline, hcolumn, hcat, hmsg, hquote,
      hclose]
    simp only [objectText, memberTexts, membersText, member, quote, List.cons_append,
      List.append_assoc, List.nil_append, List.append_nil]

theorem writes_string {key : String} (hkey : (str key).flatMap escapeByte = str key)
    (text : List Byte) :
    WritesMember (str key, .string text) (member key (quote (text.flatMap escapeByte))) :=
  .mk (spells_plain hkey) (.string (spells_escaped text))

theorem writes_number {key : String} (hkey : (str key).flatMap escapeByte = str key) (n : Nat) :
    WritesMember (str key, .number n) (member key (decimal n)) :=
  .mk (spells_plain hkey) (.number n)

theorem memberTexts_writes (severity : List Byte) (line column : Nat)
    (category message : List Byte) :
    List.Forall₂ WritesMember
      [(str "severity", .string severity), (str "line", .number line),
        (str "column", .number column), (str "category", .string category),
        (str "message", .string message)]
      (memberTexts (severity.flatMap escapeByte) line column (category.flatMap escapeByte)
        (message.flatMap escapeByte)) :=
  .cons (writes_string (by decide +kernel) _) (.cons (writes_number (by decide +kernel) _)
    (.cons (writes_number (by decide +kernel) _) (.cons (writes_string (by decide +kernel) _)
      (.cons (writes_string (by decide +kernel) _) .nil))))

theorem jsonDiagnostic_writes (a : EscapeArrays) {severity : List Byte}
    (hseverity : severity.flatMap escapeByte = severity) (line column : Nat) (d : Said) :
    ∃ ms text, ReadsAs severity line column d ms ∧ WritesObject ms text ∧
      jsonDiagnostic a severity line column d = text ++ [0x0A] := by
  have hnul := d.no_nul
  rw [List.mem_append, List.mem_append, not_or, not_or] at hnul
  obtain ⟨category, hcut, hcategory⟩ := escaped_eq hnul.1.1 a.cat (by decide : 1 ≤ 256)
  obtain ⟨message, hcut', hmessage⟩ := escaped_eq hnul.1.2 a.msg (by decide : 1 ≤ 2048)
  obtain ⟨suggestion, hcut'', hsuggestion⟩ := escaped_eq hnul.2 a.sug (by decide : 1 ≤ 2048)
  have hmembers := memberTexts_writes severity line column category message
  rw [hseverity] at hmembers
  refine ⟨_, _, ⟨category, message, suggestion, hcut, hcut', hcut'', rfl⟩, ⟨_, rfl, ?_, ?_⟩,
    jsonDiagnostic_eq a severity line column d⟩
  · exact List.cons_ne_nil _ _
  · rw [hcategory, hmessage, hsuggestion]
    apply List.rel_append hmembers
    split
    · exact .cons (writes_string (by decide +kernel) suggestion) .nil
    · exact .nil

inductive Call
  | error (lx : Lexer)
  | diag (lineNumber : Int)
  | warn (warningsAsErrors : Bool) (lineNumber : Int)

structure Report where
  call : Call
  arrays : EscapeArrays
  said : Said

namespace Report

def text (r : Report) : List Byte :=
  match r.call with
  | .error lx => parserErrorContextEx r.arrays lx r.said
  | .diag lineNumber => parserDiagCtx r.arrays lineNumber r.said
  | .warn warningsAsErrors lineNumber =>
    parserWarnCtx r.arrays warningsAsErrors lineNumber r.said

def place (r : Report) : List Byte × Nat × Nat :=
  match r.call with
  | .error lx => (str "error", lx.line, lx.column)
  | .diag lineNumber => (str "error", contextLine lineNumber, 1)
  | .warn warningsAsErrors lineNumber =>
    (if warningsAsErrors then str "error" else str "warning", contextLine lineNumber, 1)

def Read (r : Report) (ms : Members) : Prop :=
  ReadsAs r.place.1 r.place.2.1 r.place.2.2 r.said ms

theorem text_eq (r : Report) :
    r.text = jsonDiagnostic r.arrays r.place.1 r.place.2.1 r.place.2.2 r.said := by
  rw [text, place]
  cases r.call with
  | error lx => rfl
  | diag lineNumber => rfl
  | warn warningsAsErrors lineNumber => rfl

theorem plain_severity (r : Report) : r.place.1.flatMap escapeByte = r.place.1 := by
  have herror : (str "error").flatMap escapeByte = str "error" := by decide +kernel
  have hwarning : (str "warning").flatMap escapeByte = str "warning" := by decide +kernel
  rw [place]
  cases r.call with
  | error lx => exact herror
  | diag lineNumber => exact herror
  | warn warningsAsErrors lineNumber =>
      cases warningsAsErrors with
      | true => exact herror
      | false => exact hwarning

end Report

/-- Whatever the diagnostics say, the lines that are printed for them are read back as JSON
objects, one for each, that say the same. -/
theorem jsonReports_read (rs : List Report) :
    ∃ mss, readStream (rs.flatMap Report.text) = some mss ∧ List.Forall₂ Report.Read rs mss := by
  have hall : ∃ mss texts, rs.flatMap Report.text = linesOf texts ∧
      List.Forall₂ WritesObject mss texts ∧ List.Forall₂ Report.Read rs mss := by
    induction rs with
    | nil => exact ⟨[], [], rfl, .nil, .nil⟩
    | cons r rs ih =>
        obtain ⟨mss, texts, htext, hwrites, hread⟩ := ih
        obtain ⟨ms, text, hone, hobject, heq⟩ := jsonDiagnostic_writes r.arrays r.plain_severity
          r.place.2.1 r.place.2.2 r.said
        refine ⟨ms :: mss, text :: texts, ?_, .cons hobject hwrites, .cons hone hread⟩
        rw [List.flatMap_cons, r.text_eq, heq, htext]
        rfl
  obtain ⟨mss, texts, htext, hwrites, hread⟩ := hall
  rw [htext]
  exact ⟨mss, readStream_lines hwrites, hread⟩

example : parserDiagCtx ⟨fun _ => 0x41, fun _ => 0x41, fun _ => 0x41⟩ 7
    ⟨str "Memory", str "no \"room\"", [], by decide +kernel⟩ =
    str "\x7b\"severity\":\"error\",\"line\":7,\"column\":1,\"category\":\"Memory\"" ++
      str ",\"message\":\"no \\\"room\\\"\"\x7d\n" := by
  decide +kernel

end X86Assembler.JsonDiagnostics

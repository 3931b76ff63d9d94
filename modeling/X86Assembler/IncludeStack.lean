import Mathlib.Data.List.Forall2
import X86Assembler.Includes

namespace X86Assembler.IncludeStack

open CString (Byte CStr untilNul copyBounded)

structure SourceText where
  bytes : List Byte
  no_nul : 0 ∉ bytes

structure Pointer where
  buffer : Nat
  offset : Nat

/-- The buffers ever allocated; a freed one holds nothing. -/
abbrev Heap := List (Option SourceText)

/-- A read through a pointer has no value in a freed buffer or behind the NUL. -/
def Heap.read (heap : Heap) (p : Pointer) : Option Byte := do
  let buffer ← heap[p.buffer]?
  let text ← buffer
  (text.bytes ++ [0])[p.offset]?

abbrev FileName := CStr maxFilepathLength

/-- `file_entry_t`. -/
structure FileEntry where
  filename : FileName
  source : Nat
  sourcePos : Pointer
  lineNumber : Nat

/-- The part of the context that is read and written here, once a source is set: `source_pos` is
not NULL. The stack and the names of the tracker have the last file first. -/
structure Context where
  heap : Heap
  source : Nat
  sourcePos : Pointer
  lineNumber : Nat
  currentFilename : FileName
  stack : List FileEntry
  tracker : List FileName

def isCircularInclude (ctx : Context) (filename : Path) : Bool :=
  ctx.tracker.any fun name => name.bytes == untilNul filename

/-- The file on top of the stack remembers where it is read. -/
def saveCurrent (ctx : Context) : List FileEntry :=
  match ctx.stack with
  | [] => []
  | current :: stack =>
    { current with sourcePos := ctx.sourcePos, lineNumber := ctx.lineNumber } :: stack

def includePush (ctx : Context) (filename : Path) (content : Nat) : Int × Context :=
  if ctx.stack.length ≥ maxIncludeDepth then (-1, ctx)
  else if isCircularInclude ctx filename then (-1, ctx)
  else
    let name := copyBounded maxFilepathLength filename
    let start : Pointer := ⟨content, 0⟩
    (0,
      { ctx with
        source := content
        sourcePos := start
        lineNumber := 1
        currentFilename := name
        stack := ⟨name, content, start, 1⟩ :: saveCurrent ctx
        tracker :=
          if ctx.tracker.length < maxIncludeDepth then name :: ctx.tracker else ctx.tracker })

def includePop (ctx : Context) : Int × Context :=
  match ctx.stack with
  | [] => (-1, ctx)
  | entry :: stack =>
    let ctx := { ctx with
      heap := ctx.heap.set entry.source none
      stack
      tracker := ctx.tracker.tail }
    match stack with
    | [] => (0, ctx)
    | prev :: _ =>
      (stack.length,
        { ctx with
          source := prev.source
          sourcePos := prev.sourcePos
          lineNumber := prev.lineNumber
          currentFilename := prev.filename })

/-- `include_file`, with what it reads from the file. -/
def includeFile (ctx : Context) (filename : Path) (content : SourceText) : Int × Context :=
  let buffer := ctx.heap.length
  let r := includePush { ctx with heap := ctx.heap ++ [some content] } filename buffer
  if r.1 < 0 then (-1, { r.2 with heap := r.2.heap.set buffer none }) else (0, r.2)

theorem includePop_stack (ctx : Context) : (includePop ctx).2.stack = ctx.stack.tail := by
  rw [includePop]
  cases hstack : ctx.stack with
  | nil => exact hstack
  | cons entry stack => cases stack <;> rfl

/-- `source_getc`: a character or `EOF`, where the reads have a value. -/
def sourceGetc (ctx : Context) : Option (Option Byte × Context) :=
  (ctx.heap.read ctx.sourcePos).bind fun c =>
    if c ≠ 0 then
      some (some c,
        { ctx with
          sourcePos := { ctx.sourcePos with offset := ctx.sourcePos.offset + 1 }
          lineNumber := if c = 0x0A then ctx.lineNumber + 1 else ctx.lineNumber })
    else if _hstack : ctx.stack = [] then some (none, ctx)
    else sourceGetc (includePop ctx).2
termination_by ctx.stack.length
decreasing_by
  have hpos := List.length_pos_iff.mpr _hstack
  rw [includePop_stack, List.length_tail]
  omega

/-- The rest of the source and of each file on the stack, the last file first. -/
structure Texts where
  original : List Byte
  files : List (FileName × List Byte)

namespace Texts

def start (source : SourceText) : Texts := ⟨source.bytes, []⟩

/-- A file is taken up unless the stack is full or has it already. -/
def Takes (t : Texts) (filename : Path) : Prop :=
  t.files.length < maxIncludeDepth ∧ ∀ f ∈ t.files, f.1.bytes ≠ untilNul filename

instance (t : Texts) (filename : Path) : Decidable (t.Takes filename) :=
  inferInstanceAs (Decidable (_ ∧ _))

def push (t : Texts) (filename : Path) (content : SourceText) : Texts :=
  if t.Takes filename then
    { t with files := (copyBounded maxFilepathLength filename, content.bytes) :: t.files }
  else t

def getcFrom (original : List Byte) : List (FileName × List Byte) → Option Byte × Texts
  | [] => (original.head?, ⟨original.tail, []⟩)
  | (_, []) :: files => getcFrom original files
  | (name, c :: rest) :: files => (some c, ⟨original, (name, rest) :: files⟩)

/-- The next character of the first text that is not at its end. -/
def getc (t : Texts) : Option Byte × Texts := getcFrom t.original t.files

def current (t : Texts) : List Byte :=
  match t.files with
  | [] => t.original
  | f :: _ => f.2

/-- Files are on the stack, and all of them are at their ends. -/
def Ended (t : Texts) : Prop := t.files ≠ [] ∧ ∀ f ∈ t.files, f.2 = []

instance (t : Texts) : Decidable t.Ended := inferInstanceAs (Decidable (_ ∧ _))

end Texts

inductive Action
  | includeFile (filename : Path) (content : SourceText)
  | getc

/-- In a run no character is asked for where the files on the stack are all at their ends. -/
def NeverEnds : Texts → List Action → Prop
  | _, [] => True
  | t, .includeFile filename content :: actions => NeverEnds (t.push filename content) actions
  | t, .getc :: actions => ¬t.Ended ∧ NeverEnds t.getc.2 actions

/-- The buffer of the entry on top of the stack, or of the source. -/
def topBuffer (ctx : Context) : Nat :=
  match ctx.stack with
  | [] => 0
  | entry :: _ => entry.source

/-- A pointer into a live buffer, with a rest of its text in front of it. -/
structure PointsTo (heap : Heap) (p : Pointer) (buffer : Nat) (rest : List Byte) : Prop where
  buffer_eq : p.buffer = buffer
  live : ∃ text, heap[buffer]? = some (some text) ∧ p.offset ≤ text.bytes.length ∧
    text.bytes.drop p.offset = rest

/-- `source_pos` points into the source of the top entry. -/
def PointsIntoTop (ctx : Context) : Prop :=
  ∃ rest, PointsTo ctx.heap ctx.sourcePos (topBuffer ctx) rest

/-- In a run each character is that of the texts, each file is taken up where they take it, and
`source_pos` points into the top entry all along. -/
def ReadsTexts : Context → Texts → List Action → Prop
  | ctx, _, [] => PointsIntoTop ctx
  | ctx, t, .includeFile filename content :: actions =>
    PointsIntoTop ctx ∧
      (includeFile ctx filename content).1 = (if t.Takes filename then 0 else -1) ∧
      ReadsTexts (includeFile ctx filename content).2 (t.push filename content) actions
  | ctx, t, .getc :: actions =>
    PointsIntoTop ctx ∧
      ∃ ctx', sourceGetc ctx = some (t.getc.1, ctx') ∧ ReadsTexts ctx' t.getc.2 actions

def initial (source : SourceText) (filename : FileName) : Context where
  heap := [some source]
  source := 0
  sourcePos := ⟨0, 0⟩
  lineNumber := 1
  currentFilename := filename
  stack := []
  tracker := []

theorem PointsTo.read_nil {heap : Heap} {p : Pointer} {buffer : Nat} (h : PointsTo heap p buffer []) :
    heap.read p = some 0 := by
  obtain ⟨rfl, text, hlive, hle, hdrop⟩ := h
  have hend : p.offset = text.bytes.length := by
    have hlen := congrArg List.length hdrop
    rw [List.length_drop, List.length_nil] at hlen
    omega
  rw [Heap.read, hlive, hend]
  simp

theorem PointsTo.read_cons {heap : Heap} {p : Pointer} {buffer : Nat} {c : Byte} {rest : List Byte}
    (h : PointsTo heap p buffer (c :: rest)) :
    heap.read p = some c ∧ c ≠ 0 ∧ PointsTo heap { p with offset := p.offset + 1 } buffer rest := by
  obtain ⟨rfl, text, hlive, hle, hdrop⟩ := h
  have hlt : p.offset < text.bytes.length := by
    have hlen := congrArg List.length hdrop
    rw [List.length_drop, List.length_cons] at hlen
    omega
  have hget : text.bytes[p.offset]? = some c := by
    rw [← List.head?_drop, hdrop]
    rfl
  refine ⟨?_, ?_, rfl, text, hlive, hlt, ?_⟩
  · rw [Heap.read, hlive]
    change (text.bytes ++ [0])[p.offset]? = some c
    rw [List.getElem?_append_left hlt, hget]
  · rintro rfl
    exact text.no_nul (List.mem_of_getElem? hget)
  · rw [← List.drop_drop, hdrop]
    rfl

theorem PointsTo.lt {heap : Heap} {p : Pointer} {buffer : Nat} {rest : List Byte}
    (h : PointsTo heap p buffer rest) : buffer < heap.length := by
  obtain ⟨-, text, hlive, -⟩ := h
  exact (List.getElem?_eq_some_iff.mp hlive).1

theorem PointsTo.alloc {heap : Heap} {p : Pointer} {buffer : Nat} {rest : List Byte}
    (h : PointsTo heap p buffer rest) (more : Heap) : PointsTo (heap ++ more) p buffer rest := by
  have hlt := h.lt
  obtain ⟨hbuffer, text, hlive, hrest⟩ := h
  exact ⟨hbuffer, text, by rw [List.getElem?_append_left hlt, hlive], hrest⟩

theorem PointsTo.free {heap : Heap} {p : Pointer} {buffer freed : Nat} {rest : List Byte}
    (h : PointsTo heap p buffer rest) (hne : freed ≠ buffer) :
    PointsTo (heap.set freed none) p buffer rest := by
  obtain ⟨hbuffer, text, hlive, hrest⟩ := h
  exact ⟨hbuffer, text, by rw [List.getElem?_set_ne hne, hlive], hrest⟩

theorem read_freed {heap : Heap} {p : Pointer} {buffer : Nat} {rest : List Byte}
    (h : PointsTo heap p buffer rest) : Heap.read (heap.set buffer none) p = none := by
  have hlt := h.lt
  obtain ⟨rfl, -⟩ := h
  rw [Heap.read, List.getElem?_set_self hlt]
  rfl

/-- The entry of a file that is not on top points where the file is to be read on. -/
def Saved (heap : Heap) (entry : FileEntry) (f : FileName × List Byte) : Prop :=
  PointsTo heap entry.sourcePos entry.source f.2

/-- The context holds the texts. With files on the stack nothing is said of the source. -/
structure Represents (ctx : Context) (t : Texts) : Prop where
  depth : ctx.stack.length = t.files.length
  tracker : ctx.tracker = t.files.map Prod.fst
  top : PointsTo ctx.heap ctx.sourcePos (topBuffer ctx) t.current
  saved : List.Forall₂ (Saved ctx.heap) ctx.stack.tail t.files.tail
  distinct : (ctx.stack.map FileEntry.source).Nodup

theorem represents_initial (source : SourceText) (filename : FileName) :
    Represents (initial source filename) (Texts.start source) where
  depth := rfl
  tracker := rfl
  top := ⟨rfl, source, rfl, Nat.zero_le _, rfl⟩
  saved := .nil
  distinct := List.nodup_nil

theorem Represents.pointsIntoTop {ctx : Context} {t : Texts} (h : Represents ctx t) :
    PointsIntoTop ctx :=
  ⟨_, h.top⟩

theorem saved_lt {heap : Heap} {stack : List FileEntry} {files : List (FileName × List Byte)}
    (h : List.Forall₂ (Saved heap) stack files) {entry : FileEntry} (hmem : entry ∈ stack) :
    entry.source < heap.length := by
  induction h with
  | nil => cases hmem
  | cons hentry _ ih =>
      rcases List.mem_cons.mp hmem with rfl | hmem
      · exact hentry.lt
      · exact ih hmem

theorem Represents.source_lt {ctx : Context} {t : Texts} (h : Represents ctx t) {entry : FileEntry}
    (hmem : entry ∈ ctx.stack) : entry.source < ctx.heap.length := by
  have htop := h.top.lt
  have hsaved := @saved_lt _ _ _ h.saved
  rw [topBuffer] at htop
  cases hstack : ctx.stack with
  | nil =>
      rw [hstack] at hmem
      cases hmem
  | cons first stack =>
      rw [hstack] at hmem htop hsaved
      rcases List.mem_cons.mp hmem with rfl | hmem
      · exact htop
      · exact hsaved hmem

theorem isCircularInclude_iff {ctx : Context} {t : Texts} (h : Represents ctx t) (filename : Path) :
    isCircularInclude ctx filename = true ↔ ∃ f ∈ t.files, f.1.bytes = untilNul filename := by
  rw [isCircularInclude, h.tracker, List.any_map, List.any_eq_true]
  simp

theorem Represents.alloc {ctx : Context} {t : Texts} (h : Represents ctx t) (more : Heap) :
    Represents { ctx with heap := ctx.heap ++ more } t where
  depth := h.depth
  tracker := h.tracker
  top := h.top.alloc more
  saved := h.saved.imp fun _ _ hentry => hentry.alloc more
  distinct := h.distinct

theorem includeFile_refused {ctx : Context} {t : Texts} (h : Represents ctx t) {filename : Path}
    (content : SourceText) (hrefused : ¬t.Takes filename) :
    includeFile ctx filename content = (-1, { ctx with heap := ctx.heap ++ [none] }) := by
  have hpush : ∀ ctx' : Context, ctx'.stack = ctx.stack → ctx'.tracker = ctx.tracker →
      ∀ content, includePush ctx' filename content = (-1, ctx') := by
    intro ctx' hstack htracker content
    rw [includePush, hstack, h.depth]
    by_cases hfull : t.files.length ≥ maxIncludeDepth
    · rw [if_pos hfull]
    · rw [if_neg hfull]
      have hcircular : isCircularInclude ctx' filename = true := by
        have hiff := isCircularInclude_iff h filename
        rw [isCircularInclude] at hiff ⊢
        rw [htracker, hiff]
        by_contra hnone
        apply hrefused
        refine ⟨Nat.lt_of_not_le hfull, ?_⟩
        intro f hf heq
        exact hnone ⟨f, hf, heq⟩
      rw [if_pos hcircular]
  rw [includeFile]
  simp only
  rw [hpush]
  · simp
  · rfl
  · rfl

theorem saved_saveCurrent {ctx : Context} {t : Texts} (h : Represents ctx t) :
    List.Forall₂ (Saved ctx.heap) (saveCurrent ctx) t.files := by
  have hdepth := h.depth
  have htop := h.top
  have hsaved := h.saved
  rw [saveCurrent]
  rw [topBuffer, Texts.current] at htop
  cases hstack : ctx.stack with
  | nil =>
      rw [hstack] at hdepth
      rw [List.length_eq_zero_iff.mp hdepth.symm]
      exact .nil
  | cons current stack =>
      cases hfiles : t.files with
      | nil =>
          rw [hstack, hfiles] at hdepth
          cases hdepth
      | cons f files =>
          rw [hstack, hfiles] at htop hsaved
          exact .cons htop hsaved

theorem saveCurrent_source (ctx : Context) :
    (saveCurrent ctx).map FileEntry.source = ctx.stack.map FileEntry.source := by
  rw [saveCurrent]
  cases ctx.stack <;> rfl

theorem includeFile_taken {ctx : Context} {t : Texts} (h : Represents ctx t) {filename : Path}
    (content : SourceText) (htakes : t.Takes filename) :
    (includeFile ctx filename content).1 = 0 ∧
      Represents (includeFile ctx filename content).2 (t.push filename content) := by
  obtain ⟨hdepth, hnew⟩ := htakes
  have hcircular : isCircularInclude { ctx with heap := ctx.heap ++ [some content] } filename ≠
      true := by
    intro htrue
    obtain ⟨f, hf, heq⟩ := (isCircularInclude_iff (h.alloc [some content]) filename).mp htrue
    exact hnew f hf heq
  have hstack : ¬ctx.stack.length ≥ maxIncludeDepth := by
    rw [h.depth]
    omega
  have htracker : ctx.tracker.length < maxIncludeDepth := by
    rw [h.tracker, List.length_map]
    exact hdepth
  have hpush : t.push filename content =
      { t with files := (copyBounded maxFilepathLength filename, content.bytes) :: t.files } := by
    rw [Texts.push, if_pos ⟨hdepth, hnew⟩]
  rw [includeFile, includePush]
  simp only
  rw [if_neg hstack, if_neg hcircular, hpush]
  simp only [Int.lt_irrefl, if_false]
  refine ⟨trivial, ?_⟩
  have hsave := saved_saveCurrent (h.alloc [some content])
  constructor
  · have hlen := hsave.length_eq
    exact congrArg (· + 1) hlen
  · change (if ctx.tracker.length < maxIncludeDepth then _ else _) = _
    rw [if_pos htracker, h.tracker]
    rfl
  · refine ⟨rfl, content, ?_, Nat.zero_le _, rfl⟩
    exact List.getElem?_concat_length
  · exact hsave
  · simp only [List.map_cons, saveCurrent_source, List.nodup_cons]
    refine ⟨?_, h.distinct⟩
    intro hmem
    obtain ⟨entry, hentry, hsource⟩ := List.mem_map.mp hmem
    have hlt := h.source_lt hentry
    omega

theorem Represents.files_nil {ctx : Context} {t : Texts} (h : Represents ctx t) :
    ctx.stack = [] ↔ t.files = [] := by
  rw [← List.length_eq_zero_iff, h.depth, List.length_eq_zero_iff]

theorem represents_includePop {ctx : Context} {original : List Byte} {name : FileName}
    {f : FileName × List Byte} {files : List (FileName × List Byte)}
    (h : Represents ctx ⟨original, (name, []) :: f :: files⟩) :
    Represents (includePop ctx).2 ⟨original, f :: files⟩ := by
  obtain ⟨hdepth, htracker, -, hsaved, hdistinct⟩ := h
  rw [includePop]
  cases hstack : ctx.stack with
  | nil =>
      rw [hstack] at hdepth
      cases hdepth
  | cons entry stack =>
      rw [hstack] at hdepth hsaved hdistinct
      cases stack with
      | nil => cases hdepth
      | cons prev stack =>
          rw [List.map_cons, List.nodup_cons] at hdistinct
          obtain ⟨hfresh, hdistinct⟩ := hdistinct
          have hother : ∀ e ∈ prev :: stack, entry.source ≠ e.source := by
            intro e he heq
            exact hfresh (heq ▸ List.mem_map_of_mem he)
          obtain ⟨hprev, hsaved⟩ := List.forall₂_cons.mp hsaved
          constructor
          · exact Nat.succ.inj hdepth
          · exact congrArg List.tail htracker
          · exact hprev.free (hother prev List.mem_cons_self)
          · have hkept : ∀ e ∈ stack, entry.source ≠ e.source :=
              fun e he => hother e (List.mem_cons_of_mem _ he)
            apply ((List.forall₂_and_left _ _).mpr ⟨hkept, hsaved⟩).imp
            rintro e g ⟨hne, hsaved⟩
            exact hsaved.free hne
          · exact hdistinct

def advance (ctx : Context) (c : Byte) : Context :=
  { ctx with
    sourcePos := { ctx.sourcePos with offset := ctx.sourcePos.offset + 1 }
    lineNumber := if c = 0x0A then ctx.lineNumber + 1 else ctx.lineNumber }

theorem sourceGetc_char {ctx : Context} {c : Byte} (hread : ctx.heap.read ctx.sourcePos = some c)
    (hc : c ≠ 0) : sourceGetc ctx = some (some c, advance ctx c) := by
  rw [sourceGetc, hread, Option.bind_some, if_pos hc]
  rfl

theorem sourceGetc_eof {ctx : Context} (hread : ctx.heap.read ctx.sourcePos = some 0)
    (hstack : ctx.stack = []) : sourceGetc ctx = some (none, ctx) := by
  rw [sourceGetc, hread, Option.bind_some, if_neg (not_not.mpr rfl), dif_pos hstack]

theorem sourceGetc_pop {ctx : Context} (hread : ctx.heap.read ctx.sourcePos = some 0)
    (hstack : ctx.stack ≠ []) : sourceGetc ctx = sourceGetc (includePop ctx).2 := by
  rw [sourceGetc, hread, Option.bind_some, if_neg (not_not.mpr rfl), dif_neg hstack]

theorem sourceGetc_freed {ctx : Context} (hread : ctx.heap.read ctx.sourcePos = none) :
    sourceGetc ctx = none := by
  rw [sourceGetc, hread, Option.bind_none]

theorem Represents.advance_original {ctx : Context} {c : Byte} {rest : List Byte}
    (h : Represents ctx ⟨c :: rest, []⟩) : Represents (advance ctx c) ⟨rest, []⟩ where
  depth := h.depth
  tracker := h.tracker
  top := (PointsTo.read_cons h.top).2.2
  saved := h.saved
  distinct := h.distinct

theorem Represents.advance_file {ctx : Context} {original : List Byte} {name : FileName} {c : Byte}
    {rest : List Byte} {files : List (FileName × List Byte)}
    (h : Represents ctx ⟨original, (name, c :: rest) :: files⟩) :
    Represents (advance ctx c) ⟨original, (name, rest) :: files⟩ where
  depth := h.depth
  tracker := h.tracker
  top := (PointsTo.read_cons h.top).2.2
  saved := h.saved
  distinct := h.distinct

theorem sourceGetc_represents {ctx : Context} {t : Texts} (h : Represents ctx t)
    (hgoes : ¬t.Ended) :
    ∃ ctx', sourceGetc ctx = some (t.getc.1, ctx') ∧ Represents ctx' t.getc.2 := by
  obtain ⟨original, files⟩ := t
  induction files generalizing ctx with
  | nil =>
      have hstack := h.files_nil.mpr rfl
      cases original with
      | nil => exact ⟨ctx, sourceGetc_eof (PointsTo.read_nil h.top) hstack, h⟩
      | cons c rest =>
          obtain ⟨hread, hc, -⟩ := PointsTo.read_cons h.top
          exact ⟨_, sourceGetc_char hread hc, h.advance_original⟩
  | cons f files ih =>
      obtain ⟨name, rest⟩ := f
      cases rest with
      | nil =>
          have hstack : ctx.stack ≠ [] := fun hnil => by cases h.files_nil.mp hnil
          rw [sourceGetc_pop (PointsTo.read_nil h.top) hstack]
          cases files with
          | nil =>
              refine absurd ⟨List.cons_ne_nil _ _, ?_⟩ hgoes
              intro f hf
              rw [List.mem_singleton.mp hf]
          | cons f files =>
              apply ih (represents_includePop h)
              rintro ⟨-, hall⟩
              apply hgoes
              refine ⟨List.cons_ne_nil _ _, ?_⟩
              intro g hg
              rcases List.mem_cons.mp hg with rfl | hg
              · rfl
              · exact hall g hg
      | cons c rest =>
          obtain ⟨hread, hc, -⟩ := PointsTo.read_cons h.top
          exact ⟨_, sourceGetc_char hread hc, h.advance_file⟩

theorem sourceGetc_ended {ctx : Context} {t : Texts} (h : Represents ctx t) (hended : t.Ended) :
    sourceGetc ctx = none := by
  obtain ⟨original, files⟩ := t
  obtain ⟨hne, hall⟩ := hended
  induction files generalizing ctx with
  | nil => exact absurd rfl hne
  | cons f files ih =>
      obtain ⟨name, rest⟩ := f
      obtain rfl : rest = [] := hall _ List.mem_cons_self
      have hread := PointsTo.read_nil h.top
      have hstack : ctx.stack ≠ [] := fun hnil => by cases h.files_nil.mp hnil
      rw [sourceGetc_pop hread hstack]
      cases files with
      | nil =>
          have hdepth := h.depth
          have htop := h.top
          rw [topBuffer] at htop
          cases hentries : ctx.stack with
          | nil => exact absurd hentries hstack
          | cons entry stack =>
              rw [hentries] at hdepth htop
              obtain rfl := List.length_eq_zero_iff.mp (Nat.succ.inj hdepth)
              apply sourceGetc_freed
              rw [includePop, hentries]
              exact read_freed htop
      | cons f files =>
          apply ih (represents_includePop h) (List.cons_ne_nil _ _)
          intro g hg
          exact hall g (List.mem_cons_of_mem _ hg)

theorem represents_includeFile {ctx : Context} {t : Texts} (h : Represents ctx t) (filename : Path)
    (content : SourceText) :
    (includeFile ctx filename content).1 = (if t.Takes filename then 0 else -1) ∧
      Represents (includeFile ctx filename content).2 (t.push filename content) := by
  by_cases htakes : t.Takes filename
  · obtain ⟨hzero, hnext⟩ := includeFile_taken h content htakes
    rw [if_pos htakes]
    exact ⟨hzero, hnext⟩
  · rw [includeFile_refused h content htakes, if_neg htakes, Texts.push, if_neg htakes]
    exact ⟨rfl, h.alloc [none]⟩

theorem readsTexts_iff {ctx : Context} {t : Texts} (h : Represents ctx t) (actions : List Action) :
    ReadsTexts ctx t actions ↔ NeverEnds t actions := by
  induction actions generalizing ctx t with
  | nil => exact ⟨fun _ => trivial, fun _ => h.pointsIntoTop⟩
  | cons action actions ih =>
      cases action with
      | includeFile filename content =>
          obtain ⟨hresult, hnext⟩ := represents_includeFile h filename content
          rw [ReadsTexts, NeverEnds, ih hnext]
          exact ⟨fun hreads => hreads.2.2, fun hnever => ⟨h.pointsIntoTop, hresult, hnever⟩⟩
      | getc =>
          rw [ReadsTexts, NeverEnds]
          by_cases hended : t.Ended
          · constructor
            · rintro ⟨-, ctx', hrun, -⟩
              rw [sourceGetc_ended h hended] at hrun
              cases hrun
            · rintro ⟨hgoes, -⟩
              exact absurd hended hgoes
          · obtain ⟨ctx', hrun, hnext⟩ := sourceGetc_represents h hended
            constructor
            · rintro ⟨-, ctx'', hrun', hreads⟩
              rw [hrun, Option.some_inj, Prod.mk.injEq] at hrun'
              obtain ⟨-, rfl⟩ := hrun'
              exact ⟨hended, (ih hnext).mp hreads⟩
            · rintro ⟨-, hnever⟩
              exact ⟨h.pointsIntoTop, ctx', hrun, (ih hnext).mpr hnever⟩

/-- A run reads the texts just where no character is asked for with all files at their ends. -/
theorem sourceGetc_reads_iff (source : SourceText) (filename : FileName) (actions : List Action) :
    ReadsTexts (initial source filename) (Texts.start source) actions ↔
      NeverEnds (Texts.start source) actions :=
  readsTexts_iff (represents_initial source filename) actions

/-- A character of the source, a file of one character, and two more characters. -/
theorem not_reads_after_file :
    ¬ReadsTexts (initial ⟨[0x61#8, 0x62#8], by decide⟩ (CString.lit _ "main.asm"))
      (Texts.start ⟨[0x61#8, 0x62#8], by decide⟩)
      [.getc, .includeFile (CString.str "f.inc") ⟨[0x78#8], by decide⟩, .getc, .getc] := by
  rw [readsTexts_iff (represents_initial _ _)]
  rintro ⟨-, -, hgoes, -⟩
  apply hgoes
  decide

end X86Assembler.IncludeStack

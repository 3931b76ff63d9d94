import Mathlib.Data.List.Chain
import Mathlib.Logic.Relation
import X86Assembler.TextLines

namespace X86Assembler

open CString (Byte str)

/-- How the file of an include line is found, from the directory of the including file. -/
abbrev FindFile := Path → Path → Option (Path × List Byte)

/-- A text with its include lines replaced, at most a number of files deep: what `find` gives for
a line is expanded in the directory of the file, and has `tail` behind it. -/
inductive Expansion (find : FindFile) (tail : List Byte) :
    Nat → Path → List Byte → List Byte → Prop
  | nil {depth : Nat} {baseDir : Path} : Expansion find tail depth baseDir [] []
  | plain {depth : Nat} {baseDir : Path} {text out : List Byte} (h : text ≠ [])
      (hline : parseIncludeFilename (textLine text).1 = some none)
      (hrest : Expansion find tail depth baseDir (textLine text).2.2 out) :
      Expansion find tail depth baseDir text ((textLine text).2.1 ++ out)
  | included {depth : Nat} {baseDir path name : Path} {text content inner out : List Byte}
      (h : text ≠ []) (hline : parseIncludeFilename (textLine text).1 = some (some name))
      (hfile : find baseDir name = some (path, content))
      (hinner : Expansion find tail depth (dirnameFromPath path) content inner)
      (hrest : Expansion find tail (depth + 1) baseDir (textLine text).2.2 out) :
      Expansion find tail (depth + 1) baseDir text (inner ++ tail ++ out)

/-- A text in a directory has a line that includes another one. -/
structure Includes (find : FindFile) (p q : Path × List Byte) : Prop where
  line : ∃ line name path content, HasLine p.2 line ∧
    parseIncludeFilename line = some (some name) ∧ find p.1 name = some (path, content) ∧
      q = (dirnameFromPath path, content)

/-- The paths that an include line stands for, in the order in which they are tried. -/
def includeCandidates (env : IncludeEnv) (baseDir name : Path) : List Path :=
  if name.head? = some 0x2F#8 then [name]
  else
    (if baseDir = [] || baseDir = str "." then name else baseDir ++ [0x2F#8] ++ name) ::
      env.includePaths.map fun dir => dir ++ [0x2F#8] ++ name

def existingFile (env : IncludeEnv) : FindFile := fun baseDir name =>
  (includeCandidates env baseDir name).findSome? fun path =>
    (env.files path).map fun content => (path, content)

/-- The same among the paths that a buffer holds, with a newline behind the contents. -/
def includedFile (env : IncludeEnv) : FindFile := fun baseDir name =>
  ((includeCandidates env baseDir name).filter (·.length < maxFilepathLength)).findSome? fun path =>
    (readFileContents env.files path).map fun content => (path, content)

section

variable {find : FindFile} {tail : List Byte} {depth : Nat} {baseDir : Path} {text out : List Byte}

theorem Expansion.unique (h : Expansion find tail depth baseDir text out) {depth' : Nat}
    {out' : List Byte} (h' : Expansion find tail depth' baseDir text out') : out' = out := by
  induction h generalizing depth' out' with
  | nil =>
      cases h' with
      | nil => rfl
      | plain h => exact absurd rfl h
      | included h => exact absurd rfl h
  | plain h hline hrest ih =>
      cases h' with
      | nil => exact absurd rfl h
      | plain h' hline' hrest' => rw [ih hrest']
      | included h' hline' => cases hline.symm.trans hline'
  | included h hline hfile hinner hrest ihinner ih =>
      cases h' with
      | nil => exact absurd rfl h
      | plain h' hline' => cases hline.symm.trans hline'
      | included h' hline' hfile' hinner' hrest' =>
          cases hline.symm.trans hline'
          cases hfile.symm.trans hfile'
          rw [ihinner hinner', ih hrest']

theorem Expansion.of_includes (h : Expansion find tail depth baseDir text out) {q : Path × List Byte}
    (hq : Includes find (baseDir, text) q) :
    ∃ depth' out', depth = depth' + 1 ∧ Expansion find tail depth' q.1 q.2 out' := by
  obtain ⟨line, name, path, content, hhas, hname, hfile, rfl⟩ := hq.line
  dsimp only at hhas hfile
  clear hq
  induction h with
  | nil =>
      cases hhas with
      | first h => exact absurd rfl h
      | later h => exact absurd rfl h
  | plain h hline hrest ih =>
      cases hhas with
      | first => cases hline.symm.trans hname
      | later _ hhas => exact ih hhas hfile
  | included h hline hfound hinner hrest _ ih =>
      cases hhas with
      | first =>
          cases hline.symm.trans hname
          cases hfound.symm.trans hfile
          exact ⟨_, _, rfl, hinner⟩
      | later _ hhas => exact ih hhas hfile

theorem Expansion.chain_le (h : Expansion find tail depth baseDir text out)
    {chain : List (Path × List Byte)} (hchain : List.IsChain (Includes find) ((baseDir, text) :: chain)) :
    chain.length ≤ depth := by
  induction chain generalizing depth baseDir text out with
  | nil => exact Nat.zero_le _
  | cons q chain ih =>
      obtain ⟨hq, hrest⟩ := List.isChain_cons_cons.mp hchain
      obtain ⟨depth', out', rfl, hinner⟩ := h.of_includes hq
      exact Nat.succ_le_succ (ih hinner hrest)

theorem Expansion.of_reachable (h : Expansion find tail depth baseDir text out)
    {q : Path × List Byte} (hq : Relation.TransGen (Includes find) (baseDir, text) q) :
    ∃ depth' out', depth' < depth ∧ Expansion find tail depth' q.1 q.2 out' := by
  induction hq with
  | single hq =>
      obtain ⟨depth', out', rfl, hinner⟩ := h.of_includes hq
      exact ⟨depth', out', Nat.lt_succ_self _, hinner⟩
  | tail _ hq ih =>
      obtain ⟨depth₁, out₁, hlt, hinner⟩ := ih
      obtain ⟨depth₂, out₂, rfl, hinner₂⟩ := hinner.of_includes hq
      exact ⟨depth₂, out₂, by omega, hinner₂⟩

theorem Expansion.no_cycle {p : Path × List Byte} (h : Expansion find tail depth p.1 p.2 out) :
    ¬ Relation.TransGen (Includes find) p p := by
  intro hcycle
  induction depth using Nat.strong_induction_on generalizing out with
  | _ depth ih =>
      obtain ⟨depth', out', hlt, hinner⟩ := h.of_reachable hcycle
      exact ih depth' hlt hinner

end

section

variable {env : IncludeEnv}

theorem parseIncludeFilename_length {line : List Byte} {name : Path}
    (h : parseIncludeFilename line = some (some name)) : name.length < maxFilepathLength := by
  rw [parseIncludeFilename] at h
  split at h
  · cases h
  · split at h
    · cases h
    · dsimp only at h
      split at h
      · split at h
        · cases h
          rw [List.length_take, maxFilepathLength]
          omega
        · cases h
      · cases h

theorem searchIncludePaths_eq (env : IncludeEnv) (name : Path) :
    searchIncludePaths env name =
      ((env.includePaths.map fun dir => dir ++ [0x2F#8] ++ name).filter
        (·.length < maxFilepathLength)).findSome? fun path =>
          (readFileContents env.files path).map fun content => (path, content) := by
  rw [searchIncludePaths]
  induction env.includePaths with
  | nil => rfl
  | cons dir dirs ih =>
      rw [List.map_cons, List.findSome?_cons, List.filter_cons]
      by_cases hlen : (dir ++ [0x2F#8] ++ name).length < maxFilepathLength
      · rw [if_pos hlen, if_pos (decide_eq_true hlen), List.findSome?_cons, ih]
      · rw [if_neg hlen, if_neg (by simpa using hlen), ih]

theorem resolveInclude_candidates {baseDir name path : Path} (hname : name.length < maxFilepathLength)
    (h : resolveInclude baseDir name = some path) : path.length < maxFilepathLength ∧
      includeCandidates env baseDir name = path :: if name.head? = some 0x2F#8 then [] else
        env.includePaths.map fun dir => dir ++ [0x2F#8] ++ name := by
  rw [resolveInclude] at h
  rw [includeCandidates]
  split at h
  · next habs =>
      cases h
      rw [if_pos habs, if_pos habs]
      exact ⟨hname, rfl⟩
  · next hrel =>
      rw [if_neg hrel, if_neg hrel]
      split at h
      · next hbase =>
          cases h
          rw [if_pos hbase]
          exact ⟨hname, rfl⟩
      · next hbase =>
          dsimp only at h
          split at h
          · next hlen =>
              cases h
              rw [if_neg hbase]
              exact ⟨hlen, rfl⟩
          · cases h

theorem openInclude_some {baseDir name path : Path} {content : List Byte} {tracker t : List Path}
    (hname : name.length < maxFilepathLength)
    (h : openInclude env baseDir name tracker = (some (path, content), t)) :
    includedFile env baseDir name = some (path, content) := by
  rw [openInclude] at h
  cases hresolve : resolveInclude baseDir name with
  | none =>
      rw [hresolve] at h
      cases h
  | some first =>
      rw [hresolve] at h
      dsimp only at h
      obtain ⟨hlen, hcandidates⟩ := @resolveInclude_candidates env _ _ _ hname hresolve
      have hfile : includedFile env baseDir name =
          ((readFileContents env.files first).map fun content => (first, content)).or
            (if name.head? = some 0x2F#8 then none else searchIncludePaths env name) := by
        rw [includedFile, hcandidates, List.filter_cons_of_pos (by simpa using hlen),
          List.findSome?_cons]
        cases readFileContents env.files first with
        | some content => rfl
        | none =>
            rw [Option.map_none, Option.none_or]
            dsimp only
            split
            · rfl
            · exact (searchIncludePaths_eq env name).symm
      rw [hfile]
      split at h
      · cases h
      · cases hread : readFileContents env.files first with
        | some found =>
            rw [hread] at h
            cases h
            rfl
        | none =>
            rw [hread] at h
            dsimp only at h
            rw [Option.map_none, Option.none_or]
            split at h
            · cases h
            · next hrel =>
                rw [if_neg hrel]
                cases hsearch : searchIncludePaths env name with
                | none =>
                    rw [hsearch] at h
                    cases h
                | some found =>
                    rw [hsearch] at h
                    cases h
                    rfl

theorem readFileContents_of_included {baseDir name path : Path} {content : List Byte}
    (h : includedFile env baseDir name = some (path, content)) :
    readFileContents env.files path = some content := by
  obtain ⟨found, -, hfound⟩ := List.exists_of_findSome?_eq_some h
  obtain ⟨text, htext, heq⟩ := Option.map_eq_some_iff.mp hfound
  cases heq
  exact htext

theorem openInclude_tracker {baseDir name : Path} {tracker t : List Path}
    {found : Option (Path × List Byte)} (h : openInclude env baseDir name tracker = (found, t)) :
    t.length ≤ tracker.length + 1 ∧ (found = none → t.length ≤ tracker.length) := by
  rw [openInclude] at h
  split at h
  · cases h
    exact ⟨Nat.le_succ _, fun _ => Nat.le_refl _⟩
  · dsimp only at h
    split at h
    · cases h
      exact ⟨Nat.le_succ _, fun _ => Nat.le_refl _⟩
    · next first _ _ =>
        have hopened : (if tracker.length < maxIncludeDepth then tracker ++ [first]
            else tracker).length ≤ tracker.length + 1 := by
          split
          · rw [List.length_append, List.length_singleton]
          · exact Nat.le_succ _
        generalize (if tracker.length < maxIncludeDepth then tracker ++ [first]
          else tracker) = opened at h hopened
        have hclosed : opened.dropLast.length ≤ tracker.length := by
          rw [List.length_dropLast]
          omega
        split at h
        · cases h
          exact ⟨hopened, fun hnone => by cases hnone⟩
        · split at h
          · cases h
            exact ⟨Nat.le_succ_of_le hclosed, fun _ => hclosed⟩
          · split at h
            · cases h
              refine ⟨?_, fun hnone => by cases hnone⟩
              split
              · rw [List.length_append, List.length_singleton]
                exact Nat.succ_le_succ hclosed
              · exact hopened
            · cases h
              exact ⟨Nat.le_succ_of_le hclosed, fun _ => hclosed⟩

end

section

variable {env : IncludeEnv}

theorem includeLine_some {expandChild : Path → List Byte → Fallible (List Path) (List Byte)}
    {baseDir : Path} {line raw out : List Byte} {tracker t : List Path}
    (h : includeLine env expandChild baseDir line raw tracker = (some out, t)) :
    (parseIncludeFilename line = some none ∧ out = raw) ∨
    ∃ name path content opened t', parseIncludeFilename line = some (some name) ∧
      openInclude env baseDir name tracker = (some (path, content), opened) ∧
        expandChild (dirnameFromPath path) content opened = (some out, t') := by
  rw [includeLine] at h
  cases hparse : parseIncludeFilename line with
  | none =>
      rw [hparse] at h
      cases h
  | some found =>
      rw [hparse] at h
      cases found with
      | none =>
          cases h
          exact .inl ⟨rfl, rfl⟩
      | some name =>
          obtain ⟨⟨path, content⟩, opened, hopen, h⟩ := Fallible.bind_eq_some.mp h
          dsimp only at h
          cases hchild : expandChild (dirnameFromPath path) content opened with
          | mk expanded t' =>
              rw [hchild] at h
              cases h
              exact .inr ⟨name, path, content, opened, t', rfl, hopen, hchild⟩

theorem includeLine_tracker {expandChild : Path → List Byte → Fallible (List Path) (List Byte)}
    (hchild : ∀ baseDir text tracker, (expandChild baseDir text tracker).2.length ≤ tracker.length)
    (baseDir : Path) (line raw : List Byte) (tracker : List Path) :
    (includeLine env expandChild baseDir line raw tracker).2.length ≤ tracker.length := by
  rw [includeLine]
  cases parseIncludeFilename line with
  | none => exact Nat.le_refl _
  | some found =>
      cases found with
      | none => exact Nat.le_refl _
      | some name =>
          apply Fallible.bind_state fun t : List Path => t.length ≤ tracker.length
          · intro t hopen
            exact (openInclude_tracker hopen).2 rfl
          · intro found t hopen
            have hle := (openInclude_tracker hopen).1
            have hinner := hchild (dirnameFromPath found.1) found.2 t
            dsimp only
            rw [List.length_dropLast]
            omega

theorem expandIncludes_tracker (env : IncludeEnv) (levels : Nat) (baseDir : Path)
    (text : List Byte) (tracker : List Path) :
    (expandIncludes env levels baseDir text tracker).2.length ≤ tracker.length := by
  induction levels generalizing baseDir text tracker with
  | zero => exact Nat.le_refl _
  | succ levels ihlevels =>
      induction text using lineInduction generalizing tracker with
      | nil => exact Nat.le_refl _
      | line text hne ih =>
          have hline := @includeLine_tracker env _ ihlevels baseDir (readLine text).1 (readLine text).2.1
            tracker
          rw [expandIncludes_of_ne env levels baseDir hne]
          apply Fallible.bind_state fun t : List Path => t.length ≤ tracker.length
          · intro t hrun
            rwa [hrun] at hline
          · intro line t hrun
            rw [hrun] at hline
            apply Fallible.bind_state fun t : List Path => t.length ≤ tracker.length
            · intro t' hrun'
              have hrest := ih t
              rw [hrun'] at hrest
              exact hrest.trans hline
            · intro out t' hrun'
              have hrest := ih t
              rw [hrun'] at hrest
              exact hrest.trans hline

theorem expansion_of_expandIncludes (hfiles : ∀ path content,
      readFileContents env.files path = some content → ShortLines content)
    {levels : Nat} {baseDir : Path} {text out : List Byte} {tracker t : List Path}
    (hshort : ShortLines text) (h : expandIncludes env levels baseDir text tracker = (some out, t)) :
    ∃ depth, levels = depth + 1 ∧ Expansion (includedFile env) [] depth baseDir text out := by
  induction levels generalizing baseDir text out tracker t with
  | zero => cases h
  | succ levels ihlevels =>
      refine ⟨levels, rfl, ?_⟩
      induction text using lineInduction generalizing out tracker t with
      | nil =>
          cases h
          exact Expansion.nil
      | line text hne ih =>
          rw [expandIncludes_of_ne env levels baseDir hne] at h
          obtain ⟨line, t₁, hline, h⟩ := Fallible.bind_eq_some.mp h
          obtain ⟨more, t₂, hmore, h⟩ := Fallible.bind_eq_some.mp h
          obtain ⟨rfl, -⟩ := Fallible.pure_eq_some.mp h
          rw [hshort.readLine_eq] at hline hmore ih
          have hrest := ih hshort.rest hmore
          rcases includeLine_some hline with ⟨hplain, rfl⟩ |
            ⟨name, path, content, opened, t', hname, hopen, hchild⟩
          · exact Expansion.plain hne hplain hrest
          · have hfile := openInclude_some (parseIncludeFilename_length hname) hopen
            have hcontent := hfiles path content (readFileContents_of_included hfile)
            obtain ⟨depth, rfl, hinner⟩ := ihlevels hcontent hchild
            have hexpanded := Expansion.included hne hname hfile hinner hrest
            rwa [List.append_nil] at hexpanded

end

/-- What comes of an expansion that starts at depth 0 with no open file. -/
structure ExpansionRight (env : IncludeEnv) (baseDir : Path) (source : List Byte)
    (r : Option (List Byte) × List Path) : Prop where
  /-- The loop over the lines comes to its end. -/
  ends : ∀ rounds, source.length ≤ rounds →
    expandLines env (expandIncludes env maxIncludeDepth) baseDir rounds source [] = r
  closed : r.2 = []
  text : ∀ out, r.1 = some out →
    Expansion (includedFile env) [] maxIncludeDepth baseDir source out ∧
      ∀ depth out', Expansion (includedFile env) [] depth baseDir source out' → out' = out
  deep : ∀ chain, List.IsChain (Includes (includedFile env)) ((baseDir, source) :: chain) →
    maxIncludeDepth < chain.length → r.1 = none
  cycle : ∀ p, Relation.ReflTransGen (Includes (includedFile env)) (baseDir, source) p →
    Relation.TransGen (Includes (includedFile env)) p p → r.1 = none

/-- Include expansion from the source on. -/
theorem expandIncludes_right {env : IncludeEnv} (hfiles : ∀ path content,
      readFileContents env.files path = some content → ShortLines content)
    (baseDir : Path) {source : List Byte} (hsource : ShortLines source) :
    ExpansionRight env baseDir source
      (expandIncludes env (maxIncludeDepth + 1) baseDir source []) := by
  have hexpansion : ∀ out, (expandIncludes env (maxIncludeDepth + 1) baseDir source []).1 =
      some out → Expansion (includedFile env) [] maxIncludeDepth baseDir source out := by
    intro out hout
    obtain ⟨depth, hdepth, h⟩ := expansion_of_expandIncludes hfiles hsource
      (Prod.ext hout (Eq.refl (expandIncludes env (maxIncludeDepth + 1) baseDir source []).2))
    cases hdepth
    exact h
  constructor
  · intro rounds hrounds
    rw [expandLines_enough _ _ _ hrounds]
    rfl
  · have htracker := expandIncludes_tracker env (maxIncludeDepth + 1) baseDir source []
    exact List.length_eq_zero_iff.mp (Nat.le_zero.mp htracker)
  · intro out hout
    have h := hexpansion out hout
    exact ⟨h, fun depth out' h' => h.unique h'⟩
  · intro chain hchain hlong
    by_contra hne
    obtain ⟨out, hout⟩ := Option.ne_none_iff_exists'.mp hne
    have hle := (hexpansion out hout).chain_le hchain
    omega
  · intro p hreach hcycle
    by_contra hne
    obtain ⟨out, hout⟩ := Option.ne_none_iff_exists'.mp hne
    have h := hexpansion out hout
    rcases Relation.reflTransGen_iff_eq_or_transGen.mp hreach with rfl | hreach
    · exact Expansion.no_cycle h hcycle
    · obtain ⟨depth, out', -, h'⟩ := h.of_reachable hreach
      exact h'.no_cycle hcycle

/-- Two files, the first of which has an include line without a newline. -/
def nestedFiles : IncludeEnv where
  files := fun path =>
    if path = str "a" then some (str ".include 'b'")
    else if path = str "b" then some (str "nop")
    else none
  includePaths := []

theorem nestedFiles_short (path : Path) (content : List Byte)
    (h : readFileContents nestedFiles.files path = some content) : ShortLines content := by
  apply shortLines_of_length
  obtain ⟨text, htext, rfl⟩ := Option.map_eq_some_iff.mp h
  have hlen : text.length ≤ 12 := by
    simp only [nestedFiles] at htext
    split at htext
    · cases htext
      decide
    · split at htext
      · cases htext
        decide
      · cases htext
  have hprefix := @List.takeWhile_prefix _ (text ++ [0x0A#8]) (· != 0)
  have hle := hprefix.length_le
  rw [List.length_append, List.length_singleton] at hle
  rw [CString.untilNul, maxLineLength]
  omega

theorem expandIncludes_right_nestedFiles : ExpansionRight nestedFiles (str ".")
    (str ".include 'a'") (expandIncludes nestedFiles (maxIncludeDepth + 1) (str ".")
      (str ".include 'a'") []) :=
  expandIncludes_right nestedFiles_short _ (shortLines_of_length (by decide))

/-- A search path that leaves no room for a name, and one behind it. -/
def longPath : IncludeEnv where
  files := fun path =>
    if path = List.replicate 511 0x64#8 ++ str "/x" then some (str "nop")
    else if path = str "lib/x" then some (str "ret")
    else none
  includePaths := [List.replicate 511 0x64#8, str "lib"]

/-- The newline of a file ends its last include line, and is not behind what is included; a path
that is too long is passed over. -/
theorem expandIncludes_nestedFiles :
    (expandIncludes nestedFiles (maxIncludeDepth + 1) (str ".") (str ".include 'a'") []).1 =
      some (str "nop\n") ∧
    (∀ depth, ¬ Expansion (existingFile nestedFiles) [0x0A#8] depth (str ".") (str ".include 'a'")
      (str "nop\n")) ∧
    (expandIncludes longPath (maxIncludeDepth + 1) (str ".") (str ".include 'x'") []).1 =
      some (str "ret\n") ∧
    ∀ depth, ¬ Expansion (existingFile longPath) [0x0A#8] depth (str ".") (str ".include 'x'")
      (str "ret\n") := by
  refine ⟨by decide +kernel, ?_, by decide +kernel, ?_⟩
  · intro depth h
    have hb : Expansion (existingFile nestedFiles) [0x0A#8] 0 (str ".") (str "nop") (str "nop") :=
      Expansion.plain (by decide) (by decide) Expansion.nil
    have ha : Expansion (existingFile nestedFiles) [0x0A#8] 1 (str ".") (str ".include 'b'")
        (str "nop\n") :=
      @Expansion.included _ _ 0 _ (str "b") (str "b") _ _ _ [] (by decide) (by decide) (by decide)
        hb Expansion.nil
    have hsource : Expansion (existingFile nestedFiles) [0x0A#8] 2 (str ".") (str ".include 'a'")
        (str "nop\n\n") :=
      @Expansion.included _ _ 1 _ (str "a") (str "a") _ _ _ [] (by decide) (by decide) (by decide)
        ha Expansion.nil
    exact absurd (h.unique hsource) (by decide)
  · intro depth h
    have hx : Expansion (existingFile longPath) [0x0A#8] 0 (List.replicate 511 0x64#8) (str "nop")
        (str "nop") :=
      Expansion.plain (by decide) (by decide) Expansion.nil
    have hsource : Expansion (existingFile longPath) [0x0A#8] 1 (str ".") (str ".include 'x'")
        (str "nop\n") := by
      have hdir : dirnameFromPath (List.replicate 511 0x64#8 ++ str "/x") =
          List.replicate 511 0x64#8 := by
        decide +kernel
      rw [← hdir] at hx
      exact @Expansion.included _ _ 0 _ (List.replicate 511 0x64#8 ++ str "/x") (str "x") _ _ _ []
        (by decide) (by decide) (by decide +kernel) hx Expansion.nil
    exact absurd (h.unique hsource) (by decide)

end X86Assembler

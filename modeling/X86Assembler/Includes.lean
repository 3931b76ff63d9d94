import X86Assembler.Macros

namespace X86Assembler

open CString (Byte str)

def maxIncludeDepth : Nat := 10
def maxFilepathLength : Nat := 512

instance : NeZero maxFilepathLength := ⟨by decide⟩

abbrev Path := List Byte

/-- The contents of an include file as `read_file_contents` gives them: with a newline at the
end, and up to the first NUL where they are read as a string. -/
def readFileContents (files : Path → Option (List Byte)) (path : Path) : Option (List Byte) :=
  (files path).map fun content => CString.untilNul (content ++ [0x0A#8])

/-- `dirname_from_path`. -/
def dirnameFromPath (path : Path) : Path :=
  if 0x2F#8 ∉ path then str "."
  else
    let dir := (path.reverse.dropWhile (· != 0x2F#8)).tail.reverse
    if dir = [] then str "/" else dir.take (maxFilepathLength - 1)

/-- `parse_include_filename`: `none` for a malformed directive, `some none` for a line that is
none. -/
def parseIncludeFilename (line : List Byte) : Option (Option Path) :=
  match afterDotWord (str "include") line with
  | none => some none
  | some text =>
    match text with
    | [] => none
    | quote :: text =>
      if quote = 0x22#8 || quote = 0x27#8 then
        let name := (text.takeWhile (· != quote)).take (maxFilepathLength - 1)
        if (text.drop name.length).head? = some quote && name != [] then some (some name) else none
      else none

/-- What include expansion reads of the context and of the file system. -/
structure IncludeEnv where
  files : Path → Option (List Byte)
  includePaths : List Path

/-- The path that is tried first; `none` when it is too long. -/
def resolveInclude (baseDir name : Path) : Option Path :=
  if name.head? = some 0x2F#8 then some name
  else if baseDir = [] || baseDir = str "." then some name
  else
    let path := baseDir ++ [0x2F#8] ++ name
    if path.length < maxFilepathLength then some path else none

/-- The search in the `-I` paths: the first one that has the file. -/
def searchIncludePaths (env : IncludeEnv) (name : Path) : Option (Path × List Byte) :=
  env.includePaths.findSome? fun dir =>
    let path := dir ++ [0x2F#8] ++ name
    if path.length < maxFilepathLength then
      (readFileContents env.files path).map fun content => (path, content)
    else none

/-- The include file, where it was found, and the chain of open files with it in it. -/
def openInclude (env : IncludeEnv) (baseDir name : Path) :
    Fallible (List Path) (Path × List Byte) := fun tracker =>
  match resolveInclude baseDir name with
  | none => (none, tracker)
  | some path =>
    if path ∈ tracker then (none, tracker)
    else
      let tracker := if tracker.length < maxIncludeDepth then tracker ++ [path] else tracker
      match readFileContents env.files path with
      | some content => (some (path, content), tracker)
      | none =>
        if name.head? = some 0x2F#8 then (none, tracker.dropLast)
        else
          match searchIncludePaths env name with
          | some (found, content) =>
            (some (found, content),
              if tracker.length < maxIncludeDepth then tracker.dropLast ++ [found] else tracker)
          | none => (none, tracker.dropLast)

/-- The body of `expand_includes_recursive`, with the call on an included file as a parameter. -/
def expandLines (env : IncludeEnv) (expandChild : Path → List Byte → Fallible (List Path) (List Byte))
    (baseDir : Path) : Nat → List Byte → Fallible (List Path) (List Byte)
  | 0, _ => pure []
  | rounds + 1, source =>
    if source = [] then pure []
    else do
      let (line, raw, rest) := readLine source
      match parseIncludeFilename line with
      | none => Fallible.failure
      | some none =>
        let out ← expandLines env expandChild baseDir rounds rest
        pure (raw ++ out)
      | some (some name) =>
        let (path, content) ← openInclude env baseDir name
        let expanded ← fun tracker =>
          let (expanded, tracker) := expandChild (dirnameFromPath path) content tracker
          (expanded, tracker.dropLast)
        let out ← expandLines env expandChild baseDir rounds rest
        pure (expanded ++ out)

/-- `expand_includes_recursive` at depth `MAX_INCLUDE_DEPTH + 1 - levels`. -/
def expandIncludes (env : IncludeEnv) : Nat → Path → List Byte → Fallible (List Path) (List Byte)
  | 0, _, _ => Fallible.failure
  | levels + 1, baseDir, source =>
    expandLines env (expandIncludes env levels) baseDir source.length source

end X86Assembler

import Difz.Command.World

/-!
# The program

`main` of `src/difz.c` on a POSIX system whose standard error is no terminal: the validation behind
the loop over the arguments, the loading of files, and the jobs on files. A job on files changes
nothing but its output, and a patch that one run wrote makes another run write the target. The timer
of `--max-wall-ms` is not modelled; it ends a run at any moment.
-/

namespace Difz

open Wire

namespace Command

/-! ### Calls -/

/-- The calls of a run. Inputs are numbered. -/
inductive Call
  | rss
  | wall
  | lstat (input : Nat)
  | load (input : Nat)
  | fstat (input : Nat)
  | map (input : Nat)
  | reload (input : Nat)
  | allocate (input : Nat)
  | read (input : Nat)
  | openOutput
  | write
  | finish
  deriving DecidableEq, Repr

/-- The calls that the system refuses, and what the process gets from outside. Of data that it
refuses to write, `progress` bytes get out. -/
structure Host where
  refusal : Call → Option Errno
  progress : Nat
  strerror : Errno → List UInt8
  lang : Option Arg
  usage : List UInt8
  about : List UInt8

/-- `path_kind`, errors apart. -/
inductive PathKind
  | stream | file | directory | special
  deriving DecidableEq, Repr

/-- `resolve_locale`, with the value of `DIFZ_LANG`. -/
def resolveLocale (lang : Option Arg) : List Arg → Arg
  | [] =>
    match lang with
    | some (b :: code) => b :: code
    | _ => utf8 "en"
  | arg :: rest =>
    if arg = utf8 "--hilfe" then utf8 "de"
    else if arg = utf8 "--lang" then rest.headD (utf8 "en")
    else resolveLocale lang rest

/-- `warn_missing_locale` -/
def warnMissingLocale (code : Arg) (w : World) : World :=
  if code = utf8 "en" then w
  else w.complain (utf8 "WARN: i18n missing-locale " ++ code ++ utf8 "\n")

namespace Host

variable (host : Host)

/-- A message about a path, with what the system says. -/
def message (text : String) (path : Arg) (e : Errno) : List UInt8 :=
  utf8 text ++ utf8 "'" ++ path ++ utf8 "': " ++ host.strerror e ++ utf8 "\n"

/-- `classify_path`, which does not follow a link. -/
def classifyPath (w : World) (number : Nat) (path : Arg) : Except (List UInt8) PathKind :=
  let failed (e : Errno) : Except (List UInt8) PathKind :=
    .error (host.message "difz: cannot open or inspect " path e)
  if isStdin path then .ok .stream
  else match host.refusal (.lstat number) with
    | some e => failed e
    | none =>
      if w.linked path then .ok .special
      else match w.found path with
        | .error e => failed e
        | .ok (.file _) => .ok .file
        | .ok .directory => .ok .directory
        | .ok (.device _) => .ok .special

/-- `read_stream`, when `bytes` are there to be read. -/
def readStream (number : Nat) (path : Arg) (bytes : List UInt8) :
    Except (List UInt8) (List UInt8) :=
  match host.refusal (.allocate number), host.refusal (.read number) with
  | some _, _ => .error (utf8 "difz: out of memory\n")
  | none, some e => .error (host.message "difz: read error on " path e)
  | none, none => .ok bytes

/-- `load_path`. A mapped file has its own bytes. -/
def loadPath (w : World) (number : Nat) (path : Arg) : Except (List UInt8) (List UInt8) :=
  let failed (e : Errno) : Except (List UInt8) (List UInt8) :=
    .error (host.message "difz: cannot open " path e)
  if isStdin path then host.readStream number path w.stdin
  else match host.refusal (.load number), w.found path with
    | some e, _ | none, .error e => failed e
    | none, .ok node =>
      match host.refusal (.fstat number), node with
      | some e, _ => .error (host.message "difz: cannot stat " path e)
      | none, .file bytes =>
        if bytes = [] then
          match host.refusal (.allocate number) with
          | some _ => .error (utf8 "difz: out of memory\n")
          | none => .ok []
        else match host.refusal (.map number), host.refusal (.reload number) with
          | none, _ => .ok bytes
          | some _, some e => failed e
          | some _, none => host.readStream number path bytes
      | none, _ => .error (utf8 "difz: unsupported special input file\n")

/-- What of the data gets out, and why the rest does not. A file that is closed and a stream that is
flushed have no more than was written. -/
def written (data : List UInt8) : List UInt8 × Option Errno :=
  match (if data = [] then none else host.refusal .write), host.refusal .finish with
  | some e, _ | none, some e => (data.take host.progress, some e)
  | none, none => (data, none)

/-- `write_output`: the code to exit with. -/
def writeOutput (path : Option Arg) (data : List UInt8) (w : World) : Nat × World :=
  let (out, failure) := host.written data
  match (if isStreamPath path then none else host.refusal .openOutput), w.write path out with
  | some e, _ | none, .error e =>
    (1, w.complain (host.message "difz: cannot open output " (path.getD []) e))
  | none, .ok w =>
    match failure with
    | none => (0, w)
    | some e => (1, w.complain (utf8 "difz: write error: " ++ host.strerror e ++ utf8 "\n"))

end Host

/-! ### Jobs -/

inductive Job
  | directoryDiff (source target : Arg)
  | directoryPatch (source patch : Arg)
  | inspect (diff : Arg)
  | fileDiff (source target : Arg)
  | filePatch (source patch : Arg)
  deriving DecidableEq, Repr

/-- The limit for a patch that is made, in the arithmetic of `size_t`. -/
def createLimit (o : Options) (length : Nat) : UInt64 :=
  if o.maxOutputRatio ≠ 0 ∧ length > 0 then
    let share := UInt64.ofNat length * o.maxOutputRatio / 100
    let ratioCap := if share = 0 then 1 else share
    if o.maxOutputBytes = 0 ∨ ratioCap < o.maxOutputBytes then ratioCap else o.maxOutputBytes
  else o.maxOutputBytes

namespace Host

variable (host : Host) (w : World) (o : Options)

/-- `apply_rss_ceiling` and `apply_wall_ceiling` -/
def ceilings : Except (List UInt8) Unit :=
  match (if o.maxRssBytes = 0 then none else host.refusal .rss),
    (if o.maxWallMs = 0 then none else host.refusal .wall) with
  | some e, _ =>
    .error (utf8 "difz: cannot apply RSS ceiling (" ++ host.strerror e ++ utf8 ")\n")
  | none, some e =>
    .error (utf8 "difz: cannot apply wall-clock ceiling: " ++ host.strerror e ++ utf8 "\n")
  | none, none => .ok ()

/-- What only directories take. -/
def plain (job : Job) : Except (List UInt8) Job :=
  if o.rules ≠ [] then .error (utf8 "difz: --allow and --deny require directory inputs\n")
  else if o.omitSeen then .error (utf8 "difz: --omit-metadata requires directory inputs\n")
  else .ok job

def planPatch (source patch : Arg) : Except (List UInt8) Job := do
  let first ← host.classifyPath w 0 source
  if first = .directory then
    let regular := utf8 "difz: a directory source requires a regular DIFZTREE patch file\n"
    if o.rules ≠ [] then
      .error (utf8 "difz: --allow and --deny are stored when a directory patch is created\n")
    else if isStreamPath o.outputPath then
      .error (utf8 "difz: directory patch requires -o with a new directory path\n")
    else match host.classifyPath w 1 patch with
      | .ok .file | .ok .stream => .ok (.directoryPatch source patch)
      | .ok _ => .error regular
      | .error text => .error (text ++ regular)
  else if first = .special then .error (utf8 "difz: unsupported special source file\n")
  else plain o (.filePatch source patch)

def planDiff (source target : Arg) : Except (List UInt8) Job := do
  let first ← host.classifyPath w 0 source
  let second ← host.classifyPath w 1 target
  if first = .directory ∧ second = .directory then .ok (.directoryDiff source target)
  else if first = .directory ∨ second = .directory then
    .error (utf8 "difz: inputs must both be files or both be directories\n")
  else if first = .special ∨ second = .special then
    .error (utf8 "difz: unsupported special input file\n")
  else plain o (.fileDiff source target)

/-- What `main` checks behind the loop over the arguments. -/
def plan : Except (List UInt8) Job :=
  let hint := utf8 "Try 'difz --help' for usage.\n"
  if o.patchMode ∧ o.inspectMode then
    .error (utf8 "difz: --patch and --inspect are mutually exclusive\n")
  else if o.omitSeen ∧ (o.patchMode ∨ o.inspectMode) then
    .error (utf8 "difz: --omit-metadata is stored when a directory patch is created\n")
  else match o.inspectMode, o.positional with
    | true, [] => .error (utf8 "difz: --inspect requires a diff file argument\n" ++ hint)
    | true, [diff] => do
      host.ceilings o
      .ok (.inspect diff)
    | true, _ => .error (utf8 "difz: --inspect takes exactly one file argument\n")
    | false, source :: second :: _ => do
      host.ceilings o
      if o.patchMode then host.planPatch w o source second else host.planDiff w o source second
    | false, paths =>
      .error (utf8 "difz: expected 2 file arguments, got " ++ utf8 (toString paths.length) ++
        utf8 "\n" ++ hint)

/-- What a job makes of the code and the buffer of the library. -/
def deliver (failure : String) (result : Return (List UInt8)) (w : World) : Nat × World :=
  if result.1 = -4 then (1, w.complain (utf8 "difz: resource limit exceeded\n"))
  else if result.1 ≠ 0 then (1, w.complain (utf8 failure))
  else host.writeOutput o.outputPath result.2 w

/-- Both inputs are loaded before anything is done with them. -/
def withInputs (first second : Arg) (job : List UInt8 → List UInt8 → World → Nat × World) :
    Nat × World :=
  match host.loadPath w 0 first with
  | .error text => (1, w.complain text)
  | .ok a =>
    match host.loadPath (w.afterInput first) 1 second with
    | .error text => (1, (w.afterInput first).complain text)
    | .ok b => job a b (w.afterInputs first second)

variable (native : Native) (rest : Options → Job → World → Nat × World)

/-- The jobs on files; `rest` does the others. -/
def run (job : Job) : Nat × World :=
  match job with
  | .fileDiff source target =>
    host.withInputs w source target fun a b =>
      host.deliver o "difz: diff failed\n"
        (Zig.difzDiffLimited native a b (createLimit o b.length).toNat [])
  | .filePatch source patch =>
    host.withInputs w source patch fun a diff =>
      host.deliver o "difz: patch failed\n"
        (Zig.difzPatchLimited native a diff o.maxOutputBytes.toNat [])
  | job => rest o job w

/-- The world behind the warning about the language. -/
def start (args : List Arg) : World := warnMissingLocale (resolveLocale host.lang args) w

end Host

open World

variable {host : Host} {w : World} {o : Options} {native : Native}

/-! ### Inputs -/

/-- A job has failed, before its output was touched or because the system refused to write it. -/
structure Failed (host : Host) (path : Option Arg) (w : World) (r : Nat × World) : Prop where
  code : r.1 = 1
  within : Within path w r.2
  quiet : Quiet w r.2 ∨ host.refusal .write ≠ none ∨ host.refusal .finish ≠ none

lemma Failed.of_quiet {path : Option Arg} {r : Nat × World} (hcode : r.1 = 1)
    (h : Quiet w r.2) : Failed host path w r where
  code := hcode
  within := h.within path
  quiet := .inl h

def patchOptions : Options :=
  { Options.initial with
    patchMode := true
    outputPath := some (utf8 "copy")
    positional := [utf8 "old", utf8 "delta"] }

end Command

end Difz

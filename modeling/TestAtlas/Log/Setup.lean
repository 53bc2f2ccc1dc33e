import TestAtlas.Log.Options
import TestAtlas.Log.Rotation
import TestAtlas.Path
import TestAtlas.Settings.Validation

/-!
# Setting up the log

Records reach the log through handlers.  Those of this library are a handler that puts records into
the queue of a listener, and in an emergency one that writes to the console; all others are foreign
and are left alone.  A listener that runs writes the records of its queue to its outlets.

`configure` replaces the handlers of this library.  Unless it is forced it does so only once.  If
the options turn out to be wrong half-way, the emergency handler is put in.
-/

namespace TestAtlas.Log

/-- Where a listener writes to. -/
inductive Outlet where
  | console
  | file (file : RotatingFile) (format : LineFormat)
  deriving DecidableEq, Repr

/-- A listener: its outlets, the level from which on they write, and whether it still runs. -/
structure Listener where
  outlets : List Outlet
  level : Nat
  isRunning : Bool
  deriving DecidableEq, Repr

/-- What handles records. -/
inductive Handler where
  /-- Puts records into the queue of the listener with a number. -/
  | queue (listener : Nat)
  | emergency
  /-- A handler of another part of the program, which tells its handlers apart by numbers. -/
  | foreign (number : Nat)
  deriving DecidableEq, Repr

/-- The handler was put in by this library. -/
def Handler.isOurs : Handler → Bool
  | foreign _ => false
  | _ => true

/-- The state of the log: the least level that is handled, the handlers in the order in which they
were put in, the listeners in the order in which they were started, and the listener in charge. -/
structure State where
  level : Nat
  isConfigured : Bool
  handlers : List Handler
  listeners : Array Listener
  current : Option Nat

namespace State

/-- The log before it is set up. -/
def initial : State := ⟨30, false, [], #[], none⟩

instance : Inhabited State := ⟨initial⟩

/-- Takes the handlers of this library out. -/
def removeOurs (s : State) : State := { s with handlers := s.handlers.filter fun h => !h.isOurs }

/-- Lets a listener run no longer. -/
def halt (s : State) (k : Nat) : State :=
  { s with listeners := s.listeners.modify k fun l => { l with isRunning := false } }

/-- Lets the listener in charge run no longer, after it has written what is in its queue. -/
def drain (s : State) : State :=
  match s.current with
  | some k => s.halt k
  | none => s

/-- Stops the listener in charge and forgets it. -/
def stop (s : State) : State := { s.drain with current := none }

/-- Sets the level anew, takes the handlers of this library out and stops the listener in charge. -/
def clear (s : State) (level : Nat) : State := { s with level }.removeOurs.stop

/-- Puts a handler behind the others.  One that is there already stays where it is. -/
def addHandler (s : State) (h : Handler) : State :=
  { s with handlers := if h ∈ s.handlers then s.handlers else s.handlers ++ [h] }

/-- Starts a listener with the given outlets and the handler that feeds its queue. -/
def startListener (s : State) (outlets : List Outlet) : State :=
  let k := s.listeners.size
  { s.addHandler (.queue k) with
    listeners := s.listeners.push ⟨outlets, s.level, true⟩
    current := some k
    isConfigured := true }

/-- Puts in the emergency handler alone. -/
def fallBack (s : State) : State := s.removeOurs.addHandler .emergency

end State

/-- Why the outlets cannot be set up. -/
inductive SetupError where
  | invalidFormat
  | invalidPath
  | invalidNumber
  deriving DecidableEq, Repr

/-- The outlet to the console, if it is asked for. -/
def consoleOutlets (o : Options) : Except SetupError (List Outlet) :=
  if o.console.isTruthy then
    match LineFormat.ofValue? o.consoleFormat with
    | some _ => .ok [.console]
    | none => .error .invalidFormat
  else .ok []

/-- What becomes of the outlet to a file that the disk does not allow: there is none.  A path with
a null character is no path of the disk at all. -/
def refusal : DiskError → Except SetupError (List Outlet)
  | .nullCharacter => .error .invalidPath
  | _ => .ok []

/-- Opens a log file.  The directories above the file are made first. -/
def openFile (disk : Disk) (path : String) (format : LineFormat) (o : Options) :
    Except SetupError (List Outlet) × Disk :=
  match disk.makeDirectories (Path.directoryPart path) with
  | (.error e, disk) => (refusal e, disk)
  | (.ok (), disk) =>
    -- the directories stay even if the numbers turn out to be wrong
    match wholeNumber? o.maxBytes, wholeNumber? o.backupCount with
    | some maxBytes, some backupCount =>
      match disk.openToAppend path with
      | .error e => (refusal e, disk)
      | .ok disk => (.ok [.file ⟨path, maxBytes, backupCount⟩ format], disk)
    | _, _ => (.error .invalidNumber, disk)

/-- The outlet to a file, if one is asked for. -/
def fileOutlets (disk : Disk) (cwd : String) (o : Options) :
    Except SetupError (List Outlet) × Disk :=
  if !o.file.isTruthy then (.ok [], disk)
  else
    match LineFormat.ofValue? o.fileFormat, o.file with
    | none, _ => (.error .invalidFormat, disk)
    | some format, .str path => openFile disk (Path.absolute cwd path) format o
    | some _, _ => (.error .invalidPath, disk)

/-- The outlets that the options ask for, the console first. -/
def outlets (disk : Disk) (cwd : String) (o : Options) :
    Except SetupError (List Outlet) × Disk :=
  match consoleOutlets o with
  | .error e => (.error e, disk)
  | .ok console =>
    match fileOutlets disk cwd o with
    | (.error e, disk) => (.error e, disk)
    | (.ok file, disk) => (.ok (console ++ file), disk)

/-- Sets up the log.  A log that is set up already is left as it is unless `force` is given.
Without any outlet no listener is started. -/
def configure (s : State) (disk : Disk) (cwd : String) (o : Options) (force : Bool) :
    State × Disk :=
  if s.isConfigured && !force then (s, disk)
  else
    let s := s.clear (levelNumber o.level)
    match outlets disk cwd o with
    -- after a failure the mark that tells whether the log is set up stays as it was
    | (.error _, disk) => (s.fallBack, disk)
    | (.ok [], disk) => (s, disk)
    | (.ok outlets, disk) => (s.startListener outlets, disk)

/-- Writes a record to an outlet.  Nothing is written to a file if the record does not fit its
format. -/
def Outlet.write (disk : Disk) (r : Record) : Outlet → Disk
  | console => disk
  | file f format =>
    match format.line? r with
    | some line => f.write disk line
    | none => disk

/-- Writes a record to the outlets of a listener. -/
def Listener.write (l : Listener) (disk : Disk) (r : Record) : Disk :=
  if l.isRunning && decide (l.level ≤ r.level) then
    l.outlets.foldl (fun disk outlet => outlet.write disk r) disk
  else disk

/-- Hands a record to a handler.  A record in the queue of a listener that no longer runs is
lost. -/
def State.handle (s : State) (disk : Disk) (r : Record) : Handler → Disk
  | .queue k =>
    match s.listeners[k]? with
    | some l => l.write disk r
    | none => disk
  | _ => disk

/-- Logs a record: one below the level of the log is not handled. -/
def State.log (s : State) (disk : Disk) (r : Record) : Disk :=
  if s.level ≤ r.level then
    s.handlers.foldl (fun disk h => s.handle disk r h) disk
  else disk

/-- The source of the records about wrong settings. -/
def settingsSource : String := "gotestexplorer.core.explorer.explorer"

/-- Sets up the log as a settings document asks for, and logs what is wrong with the document. -/
def configureFrom (s : State) (disk : Disk) (cwd : String) (document : Json) : State × Disk :=
  let (settings, problems) := Settings.validateLenient document
  let (s, disk) := configure s disk cwd (Options.ofSettings settings) false
  (s, problems.foldl (fun disk p => s.log disk ⟨settingsSource, 30, p.warning⟩) disk)

/-- Setting up a log that is set up already changes nothing. -/
theorem configure_of_isConfigured {s : State} (h : s.isConfigured) (disk : Disk) (cwd : String)
    (o : Options) : configure s disk cwd o false = (s, disk) := by
  simp [configure, h]

end TestAtlas.Log

import ScriptLoader.Loader.Platform
import ScriptLoader.Url.FilePath

/-!
# Files on a shelf

A resolver for rehearsals: files are kept in memory by URL, and when a lookup completes can be
arranged. The answer to a lookup is settled when it is started.

## Order

Lookups wait in a queue. The first is taken: if its key is gated it is parked until the gate is
released; if it has a delay left, the delay is shortened and it goes to the end; otherwise it
completes.
-/

namespace ScriptLoader.Rehearsal

/-- What is kept under a URL. -/
inductive ShelfFile where
  | contents (text : String)
  /-- Looking it up fails. -/
  | failing (message : String)
  /-- What is found has another URL. -/
  | moved (url : Url) (contents : String)
  deriving DecidableEq, Repr

structure ShelfLookup where
  ticket : Ticket
  /-- What gates and delays know it by: the URL that is looked up, or the locator. -/
  key : String
  delay : Nat
  answer : Except LoaderError (Option Resource)

/-- Files in memory and the lookups among them. -/
structure Shelf where
  files : Table Url ShelfFile := {}
  includePaths : List Url := []
  gates : List String := []
  delays : Table String Nat := {}
  queue : List ShelfLookup := []
  /-- The lookups that wait for a gate, in the order in which they came to it. -/
  parked : List ShelfLookup := []
  started : Nat := 0

namespace Shelf

/-- What looking up a file yields. -/
def read (url : Url) : ShelfFile → Except LoaderError (Option Resource)
  | .contents text => .ok (some ⟨url, text⟩)
  | .failing message => .error (.engine message)
  | .moved url contents => .ok (some ⟨url, contents⟩)

/-- The first of some URLs that is on the shelf. -/
def find (shelf : Shelf) (urls : List Url) : Except LoaderError (Option Resource) :=
  match urls.findSome? fun url ↦ (shelf.files.get? url).map fun file ↦ (url, file) with
  | some (url, file) => read url file
  | none => .ok none

/-- The URLs that a locator stands for on the include paths. -/
def candidates (shelf : Shelf) (locator : String) : List Url :=
  shelf.includePaths.filterMap fun base ↦ (base.join locator).toOption

def start (shelf : Shelf) (key : String) (urls : List Url) : Shelf × Ticket :=
  let lookup : ShelfLookup :=
    { ticket := shelf.started, key, delay := (shelf.delays.get? key).getD 0
      answer := shelf.find urls }
  ({ shelf with started := shelf.started + 1, queue := shelf.queue ++ [lookup] }, shelf.started)

/-- Works off the queue, as far as it concerns some lookups, until one completes. Each turn parks a
lookup or shortens a delay. -/
def advance (tickets : List Ticket) : (turns : Nat) → Shelf → Shelf × Option Ticket
  | 0, shelf => (shelf, none)
  | turns + 1, shelf =>
    match shelf.queue.find? fun lookup ↦ tickets.contains lookup.ticket with
    | none => (shelf, none)
    | some lookup =>
      let queue := shelf.queue.filter (·.ticket ≠ lookup.ticket)
      if shelf.gates.contains lookup.key then
        advance tickets turns { shelf with queue, parked := shelf.parked ++ [lookup] }
      else
        match lookup.delay with
        | 0 => (shelf, some lookup.ticket)
        | delay + 1 =>
          advance tickets turns { shelf with queue := queue ++ [{ lookup with delay }] }

/-- The lookup that completes next, among some. -/
def next? (shelf : Shelf) (tickets : List Ticket) : Shelf × Option Ticket :=
  let turns := shelf.queue.foldl (fun turns lookup ↦ turns + lookup.delay + 1) 1
  advance tickets turns shelf

def cancel (shelf : Shelf) (tickets : List Ticket) : Shelf :=
  let keeps (lookup : ShelfLookup) : Bool := !tickets.contains lookup.ticket
  { shelf with queue := shelf.queue.filter keeps, parked := shelf.parked.filter keeps }

/-- Completes a lookup. -/
def answer (shelf : Shelf) (ticket : Ticket) : Shelf × Except LoaderError (Option Resource) :=
  match shelf.queue.find? (·.ticket = ticket) with
  | some lookup => (shelf.cancel [ticket], lookup.answer)
  | none => (shelf, .ok none)

def gate (shelf : Shelf) (key : String) : Shelf := { shelf with gates := key :: shelf.gates }

/-- Releases a key; the lookups parked at it go to the end of the queue. -/
def release (shelf : Shelf) (key : String) : Shelf :=
  { shelf with
    gates := shelf.gates.filter (· ≠ key)
    queue := shelf.queue ++ shelf.parked.filter (·.key = key)
    parked := shelf.parked.filter (·.key ≠ key) }

def put (shelf : Shelf) (url : Url) (file : ShelfFile) : Shelf :=
  { shelf with files := shelf.files.insert url file }

def delete (shelf : Shelf) (url : Url) : Shelf :=
  { shelf with files := ⟨shelf.files.bindings.filter (·.1 ≠ url)⟩ }

end Shelf

end ScriptLoader.Rehearsal

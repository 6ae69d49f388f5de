import ScriptLoader.Loader.Execution

/-!
# Waves and searches

Loading a unit starts a wave. A unit that joins looks up each reference whose key has not been asked
for before; one that has been asked for counts as settled at once. A reference that led somewhere
before is found among the results; any other becomes a lookup, which completes when the loader is
driven. The unit it leads to joins in turn, unless it has joined or is loaded.

## Imports

An import searches one reference for running code. It keeps resolver caching on from the request
until the file has been executed, or until the import is dropped.

## Errors

An error drops the wave and every lookup. Units that had joined keep waiting, with their callbacks.
-/

namespace ScriptLoader

variable {ω χ : Type} (p : Platform ω χ)

namespace Loader

/-- Ends the caching of imports that are over, `count` of them. -/
def endImports (l : Loader ω χ) (count : Nat) : Loader ω χ :=
  l.touch fun world ↦ Nat.repeat p.resolver.disableCaching count world

/-- Drops all lookups, and the imports they are for. -/
def dropLookups (l : Loader ω χ) : Loader ω χ :=
  let tickets := l.lookups.map (·.ticket)
  let imports := l.lookups.countP (·.purpose.isImport)
  ({ l with lookups := [] }.touch fun world ↦ p.resolver.cancel world tickets).endImports p imports

/-- Drops the wave and all lookups because of an error. -/
def abort (l : Loader ω χ) (error : LoaderError) : Loader ω χ :=
  let l := if l.wave.isSome || !l.lookups.isEmpty then l.record (.aborted error) else l
  { l with wave := none }.dropLookups p

/-- One reference of the wave is settled; how many are left, if a wave is active. -/
def settleOne (l : Loader ω χ) : Loader ω χ × Option Nat :=
  let l := l.record (.settled (l.wave.map (·.outstanding)))
  match l.wave with
  | none => (l, none)
  | some wave =>
    let outstanding := wave.outstanding - 1
    ({ l with wave := some { wave with outstanding } }, some outstanding)

/-- Records which file a lookup found, if it found one. -/
def noteFound (l : Loader ω χ) (key : String) (answer : Except LoaderError (Option Resource)) :
    Loader ω χ :=
  match answer with
  | .ok (some resource) => l.record (.found key resource.url)
  | _ => l

def setStatuses (l : Loader ω χ) (ids : List UnitId) (status : LoadStatus) : Loader ω χ :=
  ids.foldl (fun l id ↦ l.setStatus id status) l

end Loader

namespace Machine

def callBack (m : Machine ω χ) (id : UnitId) (callback : Callback ω) : Machine ω χ :=
  match callback with
  | .code code => m.start code
  | .importing deliver => (m.push (.delivering deliver)).execute id

/-- Closes the wave: all its units are loaded, and then their callbacks are called. -/
def closeWave (m : Machine ω χ) : Machine ω χ :=
  match m.loader.wave with
  | none => m.done
  | some wave =>
    let l := { m.loader with wave := none }.setStatuses wave.participants .loaded
    let m := { m with loader := l.record (.closed wave.participants) }
    match wave.participants with
    | [] => m.done
    | first :: rest => (m.push (.draining first [] (first :: rest))).done

/-- Goes on with the closing of a wave: the next callback is called, or the callbacks of the next
unit are taken. -/
def continueDraining (m : Machine ω χ) (id : UnitId) (callbacks : List (Callback ω))
    (rest : List UnitId) : Machine ω χ :=
  match callbacks, rest with
  | callback :: callbacks, rest =>
    ((m.push (.draining id callbacks rest)).update (·.record (.delivered id))).callBack id
      callback
  | [], [] => m.done
  | [], next :: rest =>
    let waiting := ((m.loader.unit? next).map (·.callbacks)).getD []
    ((m.update (·.modifyUnit next fun unit ↦ { unit with callbacks := [] })).push
      (.draining next waiting rest)).done

/-- Lets a unit join the wave. -/
def join (m : Machine ω χ) (id : UnitId) : Machine ω χ :=
  match m.loader.wave, m.loader.unit? id with
  | some wave, some unit =>
    let dependencies := unit.info.dependencies
    let wave :=
      { participants := wave.participants ++ [id]
        outstanding := wave.outstanding + dependencies.length }
    let l := ({ m.loader with wave := some wave }.setStatus id .loading).record (.joined id)
    let (l, searcher) := l.operation .searcher unit.info.directory
    ({ m with loader := l }.push (.dispatching id searcher dependencies)).done
  | none, _ => (m.update (·.record (.turnedAway id))).done
  | _, none => m.done

/-- Loads the dependencies of a unit and then calls a callback. For a loaded unit that is at once.
A unit that is being loaded keeps the callback. Any other starts a wave, of which there can be only
one. -/
def loadDependencies (m : Machine ω χ) (id : UnitId) (callback : Option (Callback ω)) :
    Machine ω χ :=
  match m.loader.unit? id with
  | none => m.done
  | some unit =>
    let wait (m : Machine ω χ) : Machine ω χ :=
      m.update (·.modifyUnit id fun unit ↦
        { unit with callbacks := unit.callbacks ++ callback.toList })
    match unit.info.status with
    | .loaded =>
      match callback with
      | some callback => (m.update (·.record (.delivered id))).callBack id callback
      | none => m.done
    | .loading => (wait m).done
    | .unloaded =>
      if m.loader.wave.isSome then
        (m.update (·.endImports p (callback.toList.countP Callback.isImport))).throw
          (.reentrancyViolation unit.info.url.text)
      else
        ((wait m).update fun l ↦ { l with wave := some {} }).push .aborting |>.join id

/-- A search of the wave has led to a unit. -/
def searchFinished (m : Machine ω χ) (id : UnitId) : Machine ω χ :=
  let (l, remaining) := m.loader.settleOne
  let m := { m with loader := l }
  match l.unit? id with
  | none => m.done
  | some unit =>
    if unit.info.status = .unloaded then m.join id
    else if remaining = some 0 then m.closeWave
    else m.done

/-- Goes on with a search that has led to a unit. -/
def continueSearch (m : Machine ω χ) (id : UnitId) (purpose : Purpose ω) : Machine ω χ :=
  match purpose with
  | .wave => m.searchFinished id
  | .importing deliver => m.loadDependencies p id (some (.importing deliver))

/-- A search fails; an import that it was for is over. -/
def failSearch (m : Machine ω χ) (purpose : Purpose ω) (error : LoaderError) : Machine ω χ :=
  (m.update (·.endImports p (if purpose.isImport then 1 else 0))).throw error

/-- Searches a reference from a directory. One that led to a unit before leads there at once; for
any other a lookup is started. -/
def search (m : Machine ω χ) (searcher : Operation) (reference : Reference) (origin : Option Url)
    (purpose : Purpose ω) : Machine ω χ :=
  let l := m.loader
  let key := reference.key searcher.context.text
  match l.cache.result? key with
  | some id => m.continueSearch p id purpose
  | none =>
    match searcher.request reference with
    | .error cause => m.failSearch p purpose (.url cause)
    | .ok request =>
      let (world, ticket) := p.resolver.start l.world request
      let lookup : Lookup ω := { ticket, key, locator := reference.locator, origin, purpose }
      let l := { l with world, lookups := l.lookups ++ [lookup] }
      { m with loader := l.record (.lookedUp key request purpose.isImport) }.done

/-- Goes on with a unit that has joined the wave: its next reference is searched, unless it has been
asked for before. -/
def continueDispatching (m : Machine ω χ) (id : UnitId) (searcher : Operation)
    (rest : List Reference) : Machine ω χ :=
  match rest with
  | [] => m.done
  | reference :: rest =>
    let m := m.push (.dispatching id searcher rest)
    let key := reference.key searcher.context.text
    if m.loader.cache.isMarked key then
      let (l, remaining) := m.loader.settleOne
      let m := { m with loader := l }
      if remaining = some 0 then m.closeWave else m.done
    else
      let l : Loader ω χ := { m.loader with cache := m.loader.cache.mark key }
      let l := l.record (.searched key)
      let origin := (l.unit? id).map (·.info.url)
      { m with loader := l }.search p searcher reference origin .wave

def importFile (m : Machine ω χ) (importer : Operation) (reference : Reference)
    (deliver : Option (Outcome → Code ω)) : Machine ω χ :=
  let l := m.loader.touch p.resolver.enableCaching
  let (l, searcher) := l.operation .searcher importer.context
  let origin := (l.compiling.bind l.unit?).map (·.info.url)
  { m with loader := l }.search p searcher reference origin (.importing deliver)

def completeLookup (m : Machine ω χ) (lookup : Lookup ω) : Machine ω χ :=
  let (world, answer) := p.resolver.answer m.loader.world lookup.ticket
  let l := { m.loader with world }.noteFound lookup.key answer
  match l.unitOfAnswer p lookup.locator lookup.origin answer with
  | (l, .error e) => { m with loader := l }.failSearch p lookup.purpose e
  | (l, .ok id) =>
    { m with loader := { l with cache := l.cache.insertResult lookup.key id } }.continueSearch p id
      lookup.purpose

/-- Completes the next lookup, if there is one that can be completed. -/
def drive (m : Machine ω χ) (next : Awaited Unit → Code ω) : Machine ω χ :=
  let l := m.loader
  if l.lookups.isEmpty then m.start (next (.settled (.ok ⟨⟩)))
  else
    let (world, ticket) := p.resolver.next? l.world (l.lookups.map (·.ticket))
    let l := { l with world }
    match ticket.bind fun ticket ↦ l.lookups.find? (·.ticket = ticket) with
    | none => { m with loader := l }.start (next .stalled)
    | some lookup =>
      let l := { l with lookups := l.lookups.eraseP (·.ticket = lookup.ticket) }
      ({ m with loader := l }.push (.driving next)).completeLookup p lookup

end Machine

end ScriptLoader

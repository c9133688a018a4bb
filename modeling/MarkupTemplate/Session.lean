import MarkupTemplate.Engine

namespace MarkupTemplate

/-- An engine with the number of the cache that it uses. -/
structure Seat where
  engine : Engine
  cache : Nat
deriving Repr, Inhabited

/-- All caches that were made, by number; the named caches and engines; and the disk. -/
structure Session where
  caches : List Cache := []
  cacheNames : Table Nat := []
  engines : Table Seat := []
  disk : Disk := {}
deriving Repr, Inhabited

/-- A cache is named itself or by an engine that uses it. -/
inductive CacheName where
  | cache (id : Text)
  | engine (id : Text)
deriving DecidableEq, Repr

/-- What can be asked of a session. -/
inductive Command where
  | makeCache (id : Text)
  | makeEngine (id : Text) (engine : Engine) (cache : Option Text)
  | setVerbosity (engine : Text) (verbosity : Verbosity)
  | setTemplateRoot (engine root : Text)
  | report (engine name : Text) (model : Model)
  | render (engine name : Text) (model : Model)
  | renderWith (engine name : Text) (model : Model)
  | renderText (engine text : Text) (model : Model)
  | compile (engine name : Text)
  | cacheSize (cache : CacheName)
  | cached (cache : CacheName) (name : Text)
  | insert (cache : CacheName) (name template : Text)
  | clear (cache : CacheName)
  | compileFrom (cache : CacheName) (name : Text) (texts : Table Text)
  | load (name : Text) (texts : Table Text)
  | write (path : Text) (content : FileContent)
  | remove (path : Text)
deriving Repr

/-- What a session answers. -/
inductive Answer where
  | done
  | config (config : Config)
  | report (report : Report)
  | text (text : Text)
  | calls (results : List (Except LoadError Text))
  | size (entries : Nat)
  | cached (template : Option Text)
  | failed (error : LoadError)
  | noSuchEngine
  | noSuchCache
  | unfinished

namespace Session

/-- The cache of a number. -/
def cacheAt (session : Session) (number : Nat) : Cache :=
  session.caches[number]?.getD []

/-- Replaces the cache of a number. -/
def setCache (session : Session) (number : Nat) (cache : Cache) : Session :=
  { session with caches := session.caches.set number cache }

/-- Makes an empty cache; its number is the number of caches before. -/
def addCache (session : Session) : Session × Nat :=
  ({ session with caches := session.caches ++ [[]] }, session.caches.length)

/-- Replaces the engine of a seat. -/
def setEngine (session : Session) (id : Text) (seat : Seat) : Session :=
  { session with engines := session.engines.insert id seat }

/-- Answers a text or an error. -/
def answerText : Except LoadError Text → Answer
  | .ok text => .text text
  | .error error => .failed error

/-- Answers with the engine of a name. -/
def withEngine (session : Session) (id : Text) (action : Seat → Session × Answer) :
    Session × Answer :=
  match session.engines.find? id with
  | none => (session, .noSuchEngine)
  | some seat => action seat

/-- Answers with the number of a cache. -/
def withCache (session : Session) (name : CacheName) (action : Nat → Session × Answer) :
    Session × Answer :=
  match name with
  | .engine id => session.withEngine id fun seat => action seat.cache
  | .cache id =>
    match session.cacheNames.find? id with
    | none => (session, .noSuchCache)
    | some number => action number

/-- Renders a template and answers with a part of what came of it. -/
def renderWith (session : Session) (depth : Nat) (id name : Text) (model : Model)
    (answer : Except LoadError Report → Answer) : Session × Answer :=
  session.withEngine id fun seat =>
    let cache := session.cacheAt seat.cache
    match seat.engine.renderTemplate? session.disk depth cache model name with
    | none => (session, .unfinished)
    | some (result, cache) => (session.setCache seat.cache cache, answer result)

/-- Makes an engine. -/
def makeEngine (session : Session) (id : Text) (engine : Engine) (cache : Option Text) :
    Session × Answer :=
  match cache with
  | none =>
    let (session, number) := session.addCache
    (session.setEngine id ⟨engine, number⟩, .config engine.config)
  | some cacheId =>
    match session.cacheNames.find? cacheId with
    | none => (session, .noSuchCache)
    | some number => (session.setEngine id ⟨engine, number⟩, .config engine.config)

/-- Carries out a command, with loops in templates up to `depth` inside each other. -/
def step (depth : Nat) (session : Session) : Command → Session × Answer
  | .makeCache id =>
    let (session, number) := session.addCache
    ({ session with cacheNames := session.cacheNames.insert id number }, .done)
  | .makeEngine id engine cache => session.makeEngine id engine cache
  | .setVerbosity id verbosity =>
    session.withEngine id fun seat =>
      let engine := seat.engine.setVerbosity verbosity
      (session.setEngine id { seat with engine }, .config engine.config)
  | .setTemplateRoot id root =>
    session.withEngine id fun seat =>
      let engine := seat.engine.setTemplateRoot root
      ((session.setCache seat.cache []).setEngine id { seat with engine }, .config engine.config)
  | .report id name model =>
    session.renderWith depth id name model fun
      | .ok report => .report report
      | .error error => .failed error
  | .render id name model =>
    session.renderWith depth id name model fun result => answerText (result.map Report.text)
  | .renderWith id name model =>
    session.renderWith depth id name model fun result => .calls [result.map Report.text]
  | .renderText id text model =>
    session.withEngine id fun seat =>
      let cache := session.cacheAt seat.cache
      match seat.engine.renderText? session.disk depth cache model text with
      | none => (session, .unfinished)
      | some (report, cache) => (session.setCache seat.cache cache, .report report)
  | .compile id name =>
    session.withEngine id fun seat =>
      let cache := session.cacheAt seat.cache
      (session.setCache seat.cache (seat.engine.keep session.disk cache name),
        answerText (seat.engine.template session.disk cache name))
  | .cacheSize cache =>
    session.withCache cache fun number => (session, .size (session.cacheAt number).length)
  | .cached cache name =>
    session.withCache cache fun number =>
      (session, .cached (Table.find? name (session.cacheAt number)))
  | .insert cache name template =>
    session.withCache cache fun number =>
      (session.setCache number (Table.insert name template (session.cacheAt number)), .done)
  | .clear cache => session.withCache cache fun number => (session.setCache number [], .done)
  | .compileFrom cache name texts =>
    session.withCache cache fun number =>
      let kept := session.cacheAt number
      (session.setCache number (kept.keep (loadText texts) name),
        answerText (kept.compiled (loadText texts) name))
  | .load name texts => (session, answerText (loadText texts name))
  | .write path content => ({ session with disk := session.disk.write path content }, .done)
  | .remove path => ({ session with disk := session.disk.remove path }, .done)

end Session

end MarkupTemplate

import MarkupTemplate.Session

namespace MarkupTemplate

/-- A cache that holds nothing but what the loaded texts compile to. -/
def Cache.Faithful (load : Text → Except LoadError Text) (cache : Cache) : Prop :=
  ∀ entry ∈ cache, ∃ raw, load entry.1 = .ok raw ∧ entry.2 = compile raw

namespace Cache.Faithful

variable {load : Text → Except LoadError Text} {cache : Cache}

theorem empty : Faithful load [] :=
  fun _ h => absurd h List.not_mem_nil

/-- Whether a template is kept or not makes no difference to what is had for its name. -/
theorem compiled (h : Faithful load cache) (name : Text) :
    cache.compiled load name = (load name).map compile := by
  unfold Cache.compiled
  split
  next template hf =>
    obtain ⟨raw, hl, ht⟩ := h _ (Table.mem_of_find? hf)
    rw [hl, show template = compile raw from ht]
    rfl
  next => rfl

/-- A name that cannot be loaded leaves nothing behind. -/
theorem keep (h : Faithful load cache) (name : Text) : Faithful load (cache.keep load name) := by
  unfold Cache.keep
  rw [h.compiled]
  cases hl : load name with
  | error => exact h
  | ok raw =>
    intro entry he
    rcases Table.mem_insert he with rfl | old
    · exact ⟨raw, hl, rfl⟩
    · exact h entry old

theorem keepAll {engine : Engine} {disk : Disk} (h : Faithful (engine.load disk) cache)
    (names : List Text) : Faithful (engine.load disk) (names.foldl (engine.keep disk) cache) := by
  induction names generalizing cache with
  | nil => exact h
  | cons name names ih => exact ih (h.keep (engine.templateName name))

end Cache.Faithful

namespace Engine

variable {engine : Engine} {disk : Disk} {cache : Cache}

theorem template_of_faithful (h : cache.Faithful (engine.load disk)) (name : Text) :
    engine.template disk cache name = (engine.load disk (engine.templateName name)).map compile :=
  h.compiled _

theorem context_of_faithful (h : cache.Faithful (engine.load disk)) :
    engine.context disk cache = engine.context disk [] := by
  have same : engine.template disk cache = engine.template disk [] := by
    funext name
    rw [template_of_faithful h, template_of_faithful .empty]
  rw [context, context, same]

/-- What a render shows does not depend on the cache that it begins with. -/
theorem renderCompiled?_of_faithful (h : cache.Faithful (engine.load disk)) (depth : Nat)
    (model : Model) (compiled : Text) :
    (engine.renderCompiled? disk depth cache model compiled).map Prod.fst =
      (engine.renderCompiled? disk depth [] model compiled).map Prod.fst := by
  unfold renderCompiled?
  rw [context_of_faithful h]
  cases render? (engine.context disk []) depth model compiled <;> rfl

theorem faithful_of_renderCompiled? (h : cache.Faithful (engine.load disk)) {depth : Nat}
    {model : Model} {compiled : Text} {report : Report} {after : Cache}
    (hr : engine.renderCompiled? disk depth cache model compiled = some (report, after)) :
    after.Faithful (engine.load disk) := by
  obtain ⟨rendering, _, he⟩ := Option.bind_eq_some_iff.mp hr
  obtain ⟨_, rfl⟩ := Prod.mk.inj (Option.some.inj he)
  exact h.keepAll _

/-- The render of a template is that of its raw text, or tells why this cannot be loaded. -/
theorem renderTemplate?_of_faithful (h : cache.Faithful (engine.load disk)) (depth : Nat)
    (model : Model) (name : Text) :
    (engine.renderTemplate? disk depth cache model name).map Prod.fst =
      match engine.load disk (engine.templateName name) with
      | .error error => some (.error error)
      | .ok raw => ((engine.renderText? disk depth [] model raw).map Prod.fst).map .ok := by
  unfold renderTemplate? renderText?
  rw [template_of_faithful h]
  cases engine.load disk (engine.templateName name) with
  | error => rfl
  | ok raw =>
    have kept : (engine.keep disk cache name).Faithful (engine.load disk) := h.keep _
    dsimp only [Except.map]
    rw [← renderCompiled?_of_faithful kept depth model (compile raw)]
    cases engine.renderCompiled? disk depth (engine.keep disk cache name) model (compile raw) <;>
      rfl

theorem faithful_of_renderTemplate? (h : cache.Faithful (engine.load disk)) {depth : Nat}
    {model : Model} {name : Text} {result : Except LoadError Report} {after : Cache}
    (hr : engine.renderTemplate? disk depth cache model name = some (result, after)) :
    after.Faithful (engine.load disk) := by
  unfold renderTemplate? at hr
  split at hr
  next =>
    obtain ⟨_, rfl⟩ := Prod.mk.inj (Option.some.inj hr)
    exact h
  next =>
    obtain ⟨⟨report, kept⟩, hc, he⟩ := Option.bind_eq_some_iff.mp hr
    obtain ⟨_, rfl⟩ := Prod.mk.inj (Option.some.inj he)
    exact faithful_of_renderCompiled? (h.keep _) hc

end Engine

/-- What can be asked of an engine whose source stays the same. -/
inductive Call where
  | setVerbosity (verbosity : Verbosity)
  | setTemplateRoot (root : Text)
  | compile (name : Text)
  | report (name : Text) (model : Model)
  | render (name : Text) (model : Model)
  | renderWith (name : Text) (model : Model)
  | renderText (text : Text) (model : Model)

namespace Call

/-- The command that makes a call of the engine of a name. -/
def command (id : Text) : Call → Command
  | .setVerbosity verbosity => .setVerbosity id verbosity
  | .setTemplateRoot root => .setTemplateRoot id root
  | .compile name => .compile id name
  | .report name model => .report id name model
  | .render name model => .render id name model
  | .renderWith name model => .renderWith id name model
  | .renderText text model => .renderText id text model

/-- The engine after a call. -/
def engineAfter (engine : Engine) : Call → Engine
  | .setVerbosity verbosity => engine.setVerbosity verbosity
  | .setTemplateRoot root => engine.setTemplateRoot root
  | _ => engine

end Call

namespace Session

/-- The answer to a call of the engine of a name. -/
def answer (session : Session) (depth : Nat) (id : Text) (call : Call) : Answer :=
  (session.step depth (call.command id)).2

/-- The session after calls of the engine of a name. -/
def afterCalls (session : Session) (depth : Nat) (id : Text) (calls : List Call) : Session :=
  calls.foldl (fun session call => (session.step depth (call.command id)).1) session

/-- A session with nothing but an engine with an empty cache. -/
def withOnly (disk : Disk) (id : Text) (engine : Engine) : Session :=
  (makeEngine { disk } id engine none).1

/-- A session has an engine of a name, with the number of a cache that is faithful to its source. -/
structure Serves (session : Session) (disk : Disk) (id : Text) (engine : Engine) (number : Nat) :
    Prop where
  same_disk : session.disk = disk
  found : session.engines.find? id = some ⟨engine, number⟩
  made : number < session.caches.length
  faithful : (session.cacheAt number).Faithful (engine.load disk)

namespace Serves

variable {session : Session} {disk : Disk} {id : Text} {engine : Engine} {number : Nat}

theorem cacheAt_setCache (h : number < session.caches.length) (cache : Cache) :
    (session.setCache number cache).cacheAt number = cache := by
  simp [cacheAt, setCache, h]

theorem makeEngine (start : Session) (id : Text) (engine : Engine) :
    Serves (start.makeEngine id engine none).1 start.disk id engine start.caches.length where
  same_disk := rfl
  found := Table.find?_insert_self ..
  made := by simp [Session.makeEngine, addCache, setEngine]
  faithful := by
    have cache : (start.makeEngine id engine none).1.cacheAt start.caches.length = [] := by
      simp [Session.makeEngine, addCache, setEngine, cacheAt]
    rw [cache]
    exact .empty

theorem setCache (h : Serves session disk id engine number) {cache : Cache}
    (hc : cache.Faithful (engine.load disk)) :
    Serves (session.setCache number cache) disk id engine number where
  same_disk := h.same_disk
  found := h.found
  made := by simpa [Session.setCache] using h.made
  faithful := by
    rw [cacheAt_setCache h.made]
    exact hc

theorem setEngine (h : Serves session disk id engine number) {other : Engine}
    (hc : (session.cacheAt number).Faithful (other.load disk)) :
    Serves (session.setEngine id ⟨other, number⟩) disk id other number where
  same_disk := h.same_disk
  found := Table.find?_insert_self ..
  made := h.made
  faithful := hc

theorem withEngine (h : Serves session disk id engine number)
    (action : Seat → Session × Answer) :
    session.withEngine id action = action ⟨engine, number⟩ := by
  rw [Session.withEngine, h.found]

/-- A render of a template keeps the cache faithful. -/
theorem renderWith (h : Serves session disk id engine number) (depth : Nat) (name : Text)
    (model : Model) (answer : Except LoadError Report → Answer) :
    Serves (session.renderWith depth id name model answer).1 disk id engine number := by
  rw [Session.renderWith, h.withEngine]
  dsimp only
  split
  next => exact h
  next result cache hr =>
    rw [h.same_disk] at hr
    exact h.setCache (Engine.faithful_of_renderTemplate? h.faithful hr)

/-- One call keeps the cache faithful to the engine's source as it is then. -/
theorem step (h : Serves session disk id engine number) (depth : Nat) (call : Call) :
    Serves (session.step depth (call.command id)).1 disk id (call.engineAfter engine) number := by
  cases call with
  | setVerbosity verbosity =>
    simp only [Call.command, Session.step, h.withEngine]
    exact h.setEngine h.faithful
  | setTemplateRoot root =>
    simp only [Call.command, Session.step, h.withEngine]
    have cleared := h.setCache .empty
    have cache := cacheAt_setCache h.made []
    exact cleared.setEngine (by rw [cache]; exact .empty)
  | compile name =>
    simp only [Call.command, Session.step, h.withEngine, h.same_disk]
    exact h.setCache (h.faithful.keep _)
  | report name model => exact h.renderWith ..
  | render name model => exact h.renderWith ..
  | renderWith name model => exact h.renderWith ..
  | renderText text model =>
    simp only [Call.command, Session.step, h.withEngine, h.same_disk]
    split
    next => exact h
    next report cache hr => exact h.setCache (Engine.faithful_of_renderCompiled? h.faithful hr)

theorem afterCalls (h : Serves session disk id engine number) (depth : Nat) (calls : List Call) :
    Serves (session.afterCalls depth id calls) disk id (calls.foldl Call.engineAfter engine)
      number := by
  induction calls generalizing session engine with
  | nil => exact h
  | cons call calls ih => exact ih (h.step depth call)

/-- What is answered to a render of a template depends on the raw text alone. -/
theorem answer_renderWith (h : Serves session disk id engine number) (depth : Nat) (name : Text)
    (model : Model) (answer : Except LoadError Report → Answer) :
    (session.renderWith depth id name model answer).2 =
      match engine.load disk (engine.templateName name) with
      | .error error => answer (.error error)
      | .ok raw =>
        ((engine.renderText? disk depth [] model raw).map Prod.fst).elim .unfinished
          fun report => answer (.ok report) := by
  have shown := Engine.renderTemplate?_of_faithful h.faithful depth model name
  have found : (session.renderWith depth id name model answer).2 =
      ((engine.renderTemplate? disk depth (session.cacheAt number) model name).map Prod.fst).elim
        .unfinished answer := by
    rw [Session.renderWith, h.withEngine, h.same_disk]
    dsimp only
    cases engine.renderTemplate? disk depth (session.cacheAt number) model name <;> rfl
  rw [found, shown]
  cases engine.load disk (engine.templateName name) with
  | error => rfl
  | ok raw =>
    dsimp only
    cases engine.renderText? disk depth [] model raw <;> rfl

theorem answer_report (h : Serves session disk id engine number) (depth : Nat) (name : Text)
    (model : Model) :
    session.answer depth id (.report name model) =
      match engine.load disk (engine.templateName name) with
      | .error error => .failed error
      | .ok raw =>
        ((engine.renderText? disk depth [] model raw).map Prod.fst).elim .unfinished .report :=
  h.answer_renderWith depth name model _

theorem answer_renderText (h : Serves session disk id engine number) (depth : Nat) (text : Text)
    (model : Model) :
    session.answer depth id (.renderText text model) =
      ((engine.renderText? disk depth [] model text).map Prod.fst).elim .unfinished .report := by
  have shown :=
    Engine.renderCompiled?_of_faithful h.faithful depth model (MarkupTemplate.compile text)
  rw [Engine.renderText?, ← shown]
  simp only [answer, Call.command, Session.step, h.withEngine, h.same_disk, Engine.renderText?]
  cases engine.renderCompiled? disk depth (session.cacheAt number) model
    (MarkupTemplate.compile text) <;> rfl

/-- Sessions whose engines have the same configuration and source answer the same. -/
theorem answer_eq {other : Session} {place : Nat} (h : Serves session disk id engine number)
    (ho : Serves other disk id engine place) (depth : Nat) (call : Call) :
    session.answer depth id call = other.answer depth id call := by
  have templates (name : Text) (model : Model) (answer : Except LoadError Report → Answer) :
      (session.renderWith depth id name model answer).2 =
        (other.renderWith depth id name model answer).2 :=
    (h.answer_renderWith depth name model answer).trans
      (ho.answer_renderWith depth name model answer).symm
  cases call with
  | setVerbosity verbosity | setTemplateRoot root =>
    simp only [answer, Call.command, Session.step, h.withEngine, ho.withEngine]
  | compile name =>
    simp only [answer, Call.command, Session.step, h.withEngine, ho.withEngine, h.same_disk,
      ho.same_disk, Engine.template_of_faithful h.faithful, Engine.template_of_faithful ho.faithful]
  | report name model => exact templates ..
  | render name model => exact templates ..
  | renderWith name model => exact templates ..
  | renderText text model => rw [h.answer_renderText, ho.answer_renderText]

end Serves

/-- However an engine with a cache of its own has been called, it answers every call as a new engine
with its configuration and source and an empty cache does. The report of a template is that of its
raw text, or the error of loading it; and every entry of the cache is what the source gives for its
name, compiled. -/
theorem answer_afterCalls (start : Session) (depth : Nat) (id : Text) (engine : Engine)
    (calls : List Call) :
    let session := (start.makeEngine id engine none).1.afterCalls depth id calls
    let current := calls.foldl Call.engineAfter engine
    (∀ call, session.answer depth id call =
      (withOnly start.disk id current).answer depth id call) ∧
    (∀ name model raw, current.load start.disk (current.templateName name) = .ok raw →
      session.answer depth id (.report name model) =
        session.answer depth id (.renderText raw model)) ∧
    (∀ name model error, session.answer depth id (.report name model) = .failed error ↔
      current.load start.disk (current.templateName name) = .error error) ∧
    ∃ seat, session.engines.find? id = some seat ∧ seat.engine = current ∧
      ∀ entry ∈ session.cacheAt seat.cache,
        ∃ raw, current.load start.disk entry.1 = .ok raw ∧ entry.2 = compile raw := by
  intro session current
  have serves : Serves session start.disk id current start.caches.length :=
    (Serves.makeEngine start id engine).afterCalls depth calls
  refine ⟨fun call => ?_, fun name model raw hl => ?_, fun name model error => ?_, ?_⟩
  · exact serves.answer_eq (Serves.makeEngine { disk := start.disk } id current) depth call
  · rw [serves.answer_report, hl, serves.answer_renderText]
  · rw [serves.answer_report]
    cases current.load start.disk (current.templateName name) with
    | error cause => simp
    | ok raw =>
      dsimp only
      cases current.renderText? start.disk depth [] model raw <;> simp
  · exact ⟨_, serves.found, rfl, serves.faithful⟩

end Session

end MarkupTemplate

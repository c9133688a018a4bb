import MarkupTemplate.Engine

namespace MarkupTemplate

/-- Where a path leads as it is written: from the top directory, or from the working directory some
levels up, and from there down a trail. -/
structure Spot where
  fromTop : Bool
  up : Nat := 0
  down : Trail := []
deriving DecidableEq, Repr

/-- A path that begins with a slash starts at the top directory. -/
def startsAtTop (path : Text) : Bool :=
  path.head? = some '/'

namespace Spot

/-- One step along a path. Nothing is above the top directory. -/
def enter (spot : Spot) (part : Text) : Spot :=
  if part = [] ∨ part = ['.'] then spot
  else if part = ['.', '.'] then
    match spot.down with
    | _ :: down => { spot with down }
    | [] => if spot.fromTop then spot else { spot with up := spot.up + 1 }
  else { spot with down := part :: spot.down }

/-- Where a path leads. -/
def ofPath (path : Text) : Spot :=
  (pathParts path).foldl enter { fromTop := startsAtTop path }

/-- The second spot is the first one or below it. -/
def Covers (root spot : Spot) : Prop :=
  spot.fromTop = root.fromTop ∧ spot.up = root.up ∧ root.down <:+ spot.down

/-- Where a way leads that starts at a spot and not at the working directory. -/
def onward (root way : Spot) : Spot where
  fromTop := root.fromTop
  up := if root.fromTop then root.up else root.up + (way.up - root.down.length)
  down := way.down ++ root.down.drop way.up

/-- A way that leaves some of the directories of the root, the innermost ones, comes back down
through them. It leaves no more than there are, unless nothing is above them. -/
def Regains (root way : Spot) : Prop :=
  (root.fromTop = true ∨ way.up ≤ root.down.length) ∧ root.down.take way.up <:+ way.down

variable {root way : Spot} {part : Text}

theorem enter_here (h : part = [] ∨ part = ['.']) (spot : Spot) : spot.enter part = spot :=
  if_pos h

theorem enter_down (h : ¬(part = [] ∨ part = ['.'])) (hd : part ≠ ['.', '.']) (spot : Spot) :
    spot.enter part = { spot with down := part :: spot.down } := by
  rw [enter, if_neg h, if_neg hd]

theorem onward_start (root : Spot) : root.onward { fromTop := false } = root := by
  obtain ⟨fromTop, up, down⟩ := root
  cases fromTop <;> simp [onward]

theorem start_onward (h : way.fromTop = false) :
    Spot.onward { fromTop := false } way = way := by
  obtain ⟨fromTop, up, down⟩ := way
  obtain rfl : fromTop = false := h
  simp [onward]

theorem fromTop_enter (spot : Spot) (part : Text) : (spot.enter part).fromTop = spot.fromTop := by
  unfold enter
  split
  next => rfl
  split
  next =>
    split
    next => rfl
    next => split <;> rfl
  next => rfl

theorem fromTop_foldl_enter (spot : Spot) (parts : List Text) :
    (parts.foldl enter spot).fromTop = spot.fromTop := by
  induction parts generalizing spot with
  | nil => rfl
  | cons part parts ih => rw [List.foldl_cons, ih, fromTop_enter]

theorem fromTop_ofPath (path : Text) : (ofPath path).fromTop = startsAtTop path :=
  fromTop_foldl_enter ..

/-- A step at the end of a way is a step from where the way leads. -/
theorem onward_enter (h : way.fromTop = false) (part : Text) :
    root.onward (way.enter part) = (root.onward way).enter part := by
  obtain ⟨fromTop, up, down⟩ := way
  obtain rfl : fromTop = false := h
  unfold enter
  split
  next => rfl
  split
  next =>
    cases down with
    | cons name down => rfl
    | nil =>
      cases hd : root.down.drop up with
      | cons name rest =>
        -- the step leaves a directory of the root
        have inside : up < root.down.length := by
          have := congrArg List.length hd
          simp only [List.length_drop, List.length_cons] at this
          omega
        have left : root.down.drop (up + 1) = rest := by
          rw [← List.drop_drop, hd, List.drop_one, List.tail_cons]
        have level : up + 1 - root.down.length = up - root.down.length := by omega
        simp [onward, hd, left, level]
      | nil =>
        -- the way has left all of them before
        have outside : root.down.length ≤ up := List.drop_eq_nil_iff.mp hd
        have left : root.down.drop (up + 1) = [] := List.drop_eq_nil_iff.mpr (by omega)
        have level : up + 1 - root.down.length = up - root.down.length + 1 := by omega
        cases ht : root.fromTop <;> simp [onward, hd, left, level, ht, Nat.add_assoc]
  next => rfl

theorem foldl_enter_onward (h : way.fromTop = false) (parts : List Text) :
    parts.foldl enter (root.onward way) = root.onward (parts.foldl enter way) := by
  induction parts generalizing way with
  | nil => rfl
  | cons part parts ih =>
    rw [List.foldl_cons, List.foldl_cons, ← onward_enter h, ih (by rw [fromTop_enter, h])]

/-- What a way leaves of a root makes up the root with what the way adds exactly if the way adds
what it does not leave. -/
theorem covers_onward_iff : root.Covers (root.onward way) ↔ root.Regains way := by
  have cancel : root.down <:+ way.down ++ root.down.drop way.up ↔
      root.down.take way.up <:+ way.down := by
    have both := @List.suffix_append_self_iff _ (root.down.take way.up) way.down
      (root.down.drop way.up)
    rwa [List.take_append_drop] at both
  have level : (root.onward way).up = root.up ↔
      root.fromTop = true ∨ way.up ≤ root.down.length := by
    cases ht : root.fromTop <;> simp [onward, ht, Nat.sub_eq_zero_iff_le]
  exact (and_iff_right rfl).trans (and_congr level cancel)

end Spot

theorem pathParts_ne_nil (path : Text) : pathParts path ≠ [] := by
  fun_cases pathParts path <;> simp_all

theorem pathParts_append (before after : Text) :
    pathParts (before ++ '/' :: after) = pathParts before ++ pathParts after := by
  induction before with
  | nil => simp [pathParts]
  | cons c rest ih =>
    by_cases hc : c = '/'
    · subst hc
      simp [pathParts, ih]
    · obtain ⟨part, parts, hp⟩ := List.exists_cons_of_ne_nil (pathParts_ne_nil rest)
      rw [List.cons_append, pathParts, pathParts, ih, hp]
      · rfl
      all_goals simp_all

namespace Spot

/-- The parts of a name are entered behind those of the root. -/
theorem foldl_enter_joinPath {root name : Text} (hr : root ≠ []) (hn : startsAtTop name = false)
    (spot : Spot) :
    (pathParts (joinPath root name)).foldl enter spot =
      (pathParts name).foldl enter ((pathParts root).foldl enter spot) := by
  have relative : ¬(name.head? = some '/' ∨ root = []) := by simpa [startsAtTop, hr] using hn
  rw [joinPath, if_neg relative]
  split
  next hl =>
    -- a slash at the end of the root adds an empty part, which leads nowhere
    obtain ⟨base, rfl⟩ := List.getLast?_eq_some_iff.mp hl
    rw [List.append_assoc, List.singleton_append, pathParts_append, pathParts_append,
      List.foldl_append, List.foldl_append]
    rfl
  next => rw [pathParts_append, List.foldl_append]

theorem startsAtTop_joinPath {root name : Text} (hr : root ≠ []) (hn : startsAtTop name = false) :
    startsAtTop (joinPath root name) = startsAtTop root := by
  have relative : ¬(name.head? = some '/' ∨ root = []) := by simpa [startsAtTop, hr] using hn
  obtain ⟨c, rest, rfl⟩ := List.exists_cons_of_ne_nil hr
  rw [joinPath, if_neg relative]
  split <;> rfl

/-- A name leads on from the root, unless it starts at the top directory. -/
theorem ofPath_joinPath (root name : Text) :
    ofPath (joinPath root name) =
      if startsAtTop name then ofPath name else (ofPath root).onward (ofPath name) := by
  cases hn : startsAtTop name with
  | true =>
    have absolute : name.head? = some '/' := by simpa [startsAtTop] using hn
    rw [joinPath, if_pos (.inl absolute), if_pos rfl]
  | false =>
    rw [if_neg Bool.false_ne_true]
    by_cases hr : root = []
    · rw [joinPath, if_pos (.inr hr), hr]
      exact (start_onward ((fromTop_ofPath name).trans hn)).symm
    · calc ofPath (joinPath root name)
          = (pathParts name).foldl enter (ofPath root) := by
            rw [ofPath, startsAtTop_joinPath hr hn, foldl_enter_joinPath hr hn]
            rfl
        _ = (pathParts name).foldl enter ((ofPath root).onward { fromTop := false }) := by
            rw [onward_start]
        _ = (ofPath root).onward (ofPath name) := by
            rw [foldl_enter_onward rfl, ofPath.eq_def name, hn]

end Spot

namespace Disk

variable {disk : Disk} {trail : Trail}

/-- A step that leads into the working directory starts there. -/
theorem inside_of_enter {location : Location} {part : Text}
    (h : disk.enter location part = .ok (.inside trail)) :
    ∃ begun, location = .inside begun ∧
      Spot.enter ⟨false, 0, begun⟩ part = ⟨false, 0, trail⟩ := by
  unfold enter at h
  split at h
  next => cases h
  split at h
  next hp =>
    cases h
    exact ⟨trail, rfl, Spot.enter_here hp _⟩
  next hp =>
    cases location with
    | above levels =>
      split at h
      next => cases h
      next => split at h <;> cases h
    | inside begun =>
      split at h
      next hdots =>
        subst hdots
        cases begun with
        | nil => cases h
        | cons name begun =>
          cases h
          exact ⟨name :: trail, rfl, rfl⟩
      next hdots =>
        split at h
        next => cases h
        dsimp only at h
        split at h
        next =>
          cases h
          exact ⟨begun, rfl, Spot.enter_down hp hdots _⟩
        next => cases h

theorem inside_of_foldlM_enter {parts : List Text} {location : Location}
    (h : parts.foldlM disk.enter location = .ok (.inside trail)) :
    ∃ begun, location = .inside begun ∧
      parts.foldl Spot.enter ⟨false, 0, begun⟩ = ⟨false, 0, trail⟩ := by
  induction parts generalizing location with
  | nil =>
    cases h
    exact ⟨trail, rfl, rfl⟩
  | cons part parts ih =>
    rw [List.foldlM_cons] at h
    cases hp : disk.enter location part with
    | error error =>
      rw [hp] at h
      cases h
    | ok next =>
      rw [hp] at h
      obtain ⟨middle, rfl, rest⟩ := ih h
      obtain ⟨begun, hb, first⟩ := inside_of_enter hp
      exact ⟨begun, hb, by rw [List.foldl_cons, first, rest]⟩

/-- A file that is read is where the path leads as it is written. -/
theorem file?_of_read {path text : Text} (h : disk.read path = .ok text) :
    ∃ trail, Spot.ofPath path = ⟨false, 0, trail⟩ ∧ disk.file? trail = some (.text text) := by
  unfold read at h
  split at h
  next => cases h
  next => cases h
  next trail hl =>
    have held : disk.file? trail = some (.text text) := by
      split at h
      next => cases h
      next => cases h
      next hf =>
        cases h
        exact hf
    refine ⟨trail, ?_, held⟩
    unfold locate at hl
    split at hl
    next => cases hl
    split at hl
    next => cases hl
    split at hl
    next => cases hl
    dsimp only at hl
    obtain ⟨begun, hb, led⟩ := inside_of_foldlM_enter hl
    split at hb
    next => cases hb
    next hs =>
      cases hb
      rw [Spot.ofPath, startsAtTop, decide_eq_false hs]
      exact led

end Disk

theorem Source.read_of_load {disk : Disk} {root name raw : Text}
    (h : Source.load disk name (.files root) = .ok raw) :
    disk.read (joinPath root name) = .ok raw := by
  rw [load] at h
  split at h
  next text hr =>
    cases h
    exact hr
  next => cases h
  next => cases h

namespace Engine

theorem exists_raw_of_template {engine : Engine} {disk : Disk} {name template : Text}
    (h : engine.template disk [] name = .ok template) :
    ∃ raw, engine.source.load disk (engine.templateName name) = .ok raw ∧
      template = compile raw := by
  have loaded : (engine.load disk (engine.templateName name)).map compile = .ok template := h
  cases hl : engine.load disk (engine.templateName name) with
  | error error =>
    rw [hl] at loaded
    cases loaded
  | ok raw =>
    rw [hl] at loaded
    cases loaded
    exact ⟨raw, hl, rfl⟩

/-- The file that an engine loads for a name, be it of a caller or of an include, is where the root
and the name lead together. That is at or below the root exactly if the name starts at the top
directory and leads there, or comes back through the directories of the root that it leaves. -/
theorem opens_below_root_iff (config : Config) (root name : Text) :
    let engine : Engine := ⟨config, .files root⟩
    let below := engine.templateName name
    let path := joinPath root below
    (∀ disk template, engine.template disk [] name = .ok template →
      ∃ trail raw, Spot.ofPath path = ⟨false, 0, trail⟩ ∧ disk.file? trail = some (.text raw) ∧
        template = compile raw) ∧
      ((Spot.ofPath root).Covers (Spot.ofPath path) ↔
        if startsAtTop below then (Spot.ofPath root).Covers (Spot.ofPath below)
        else (Spot.ofPath root).Regains (Spot.ofPath below)) := by
  intro engine below path
  refine ⟨fun disk template h => ?_, ?_⟩
  · obtain ⟨raw, hraw, rfl⟩ := exists_raw_of_template h
    obtain ⟨trail, hs, hf⟩ := Disk.file?_of_read (Source.read_of_load hraw)
    exact ⟨trail, raw, hs, hf, rfl⟩
  · rw [Spot.ofPath_joinPath]
    split
    next => exact Iff.rfl
    next => exact Spot.covers_onward_iff

/-- A file beside the root is loaded for a name that leads up. -/
theorem opens_beside_root :
    let engine : Engine := .ofConfig { templateRoot := "t".toList }
    let disk : Disk := ((Disk.write {} "t/a".toList (.text "a".toList)).write "secret".toList
      (.text "s".toList))
    engine.template disk [] "../secret".toList = .ok "s".toList ∧
      ¬(Spot.ofPath "t".toList).Covers
        (Spot.ofPath (joinPath "t".toList (engine.templateName "../secret".toList))) := by
  intro engine disk
  have loaded : (engine.template disk [] "../secret".toList).toOption = some "s".toList := by
    decide +kernel
  refine ⟨?_, by rw [Spot.Covers]; decide +kernel⟩
  cases hl : engine.template disk [] "../secret".toList with
  | error error =>
    rw [hl] at loaded
    cases loaded
  | ok template =>
    rw [hl] at loaded
    cases loaded
    rfl

end Engine

end MarkupTemplate

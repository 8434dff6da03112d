import DocumentMerge.Proofs.Segment.Calls

/-!
# What a user can do with a node

There are four calls on a node: three that bind and the merge.  The three differ in where the value
comes from, and agree in what they do with it.

* `Action.stored?` is the value that an action would store, which depends on the disk at most.
* `Stores`: what the three bindings have in common, and `bindsBy_cases`, what they do with it.
* `Action.call_cases`: a call that binds puts this value under the tag, if there is one and the tag
  is declared.  Otherwise it fails and changes nothing.
* `tame_call`: every action is tame.
-/

namespace DocumentMerge.Segment

/-- A call that a user makes on a node. -/
inductive Action where
  | bind (key value : Text) (encode : Bool)
  | bindBytes (key : Text) (value : List UInt8) (encode : Bool) (charset : Text)
  | bindImage (key path : Text) (placement : Placement)
  | merge

namespace Action

/-- The call on a node. -/
def call : Action → Call Unit
  | .bind key value encode => Segment.bind key value encode
  | .bindBytes key value encode charset => Segment.bindBytes key value encode charset
  | .bindImage key path placement => Segment.bindImage key path placement
  | .merge => Segment.merge

/-- The key and the stored value of an action that binds.  An action that cannot be done for its
charset or its image binds nothing. -/
def stored? (disk : Disk) : Action → Option (Text × Text)
  | .bind key value encode => some (key, Markup.encodeValue encode value)
  | .bindBytes key value encode charset =>
    (Charset.ofLabel? charset).map fun c => (key, Markup.encodeValue encode (c.decode value))
  | .bindImage key path placement =>
    match Frame.build disk path placement with
    | .ok frame => some (key, Markup.encodeValue false frame.xml)
    | .error _ => none
  | .merge => none

end Action

/-! ## What a binding does -/

/-- Whether a fragment declares a variable. -/
def declares (own : Fragment) (config : Config) (key : Text) : Bool :=
  Bindings.declaredIn (config.tag key) [own.source]

theorem declaredTag_of_declares {own : Fragment} {config : Config} {key : Text}
    (h : declares own config key = true) : declaredTag own config key = .ok (config.tag key) :=
  if_pos h

theorem declaredTag_of_not_declares {own : Fragment} {config : Config} {key : Text}
    (h : declares own config key = false) :
    declaredTag own config key = .error (.segmentVariableNotFound own.name key) :=
  if_neg (Bool.eq_false_iff.1 h)

/-- A change of values that asks first whether a variable is declared. -/
def bindsBy (key : Text) (store : Values → Session → Text → Except Error Values) : Call Unit :=
  edit fun own session =>
    (declaredTag own session.config key).bind (store own.values session)

/-- A way to change values: the files on disk say whether there is a value to store, and if there is
one, it is put under the tag. -/
structure Stores (store : Values → Session → Text → Except Error Values)
    (value? : Disk → Option Text) : Prop where
  stored : ∀ {σ : Session} {v : Text}, value? σ.disk = some v → ∀ values tag,
    ∃ new, store values σ tag = .ok new ∧ new.bindings = values.bindings.put tag v
  refused : ∀ {σ : Session}, value? σ.disk = none → ∀ values tag,
    ∃ cause, store values σ tag = .error cause
  detached : ∀ values (σ : Session) tag, store values σ.detached tag = store values σ tag

theorem stores_bind (value : Text) (encode : Bool) :
    Stores (fun values _ tag => .ok (values.bind tag value encode))
      (fun _ => some (Markup.encodeValue encode value)) where
  stored known values tag := by
    cases known
    exact ⟨_, rfl, rfl⟩
  refused none := by cases none
  detached _ _ _ := rfl

theorem stores_bindBytes (value : List UInt8) (encode : Bool) (label : Text) :
    Stores (fun values _ tag => values.bindBytes tag value encode label)
      (fun _ => (Charset.ofLabel? label).map fun c =>
        Markup.encodeValue encode (c.decode value)) where
  stored known values tag := by
    obtain ⟨charset, found, rfl⟩ := Option.map_eq_some_iff.1 known
    rw [Values.bindBytes, found]
    exact ⟨_, rfl, rfl⟩
  refused none values tag := by
    rw [Values.bindBytes, Option.map_eq_none_iff.1 none]
    exact ⟨_, rfl⟩
  detached _ _ _ := rfl

theorem stores_bindImage (path : Text) (placement : Placement) :
    Stores (fun values σ tag => values.bindImage σ.disk tag path placement)
      (fun disk => (Frame.build disk path placement).toOption.map fun frame =>
        Markup.encodeValue false frame.xml) where
  stored {σ v} known values tag := by
    rw [Values.bindImage]
    cases built : Frame.build σ.disk path placement with
    | error cause => rw [built] at known; cases known
    | ok frame =>
      rw [built] at known
      cases known
      exact ⟨_, rfl, rfl⟩
  refused {σ} none values tag := by
    rw [Values.bindImage]
    cases built : Frame.build σ.disk path placement with
    | error cause => exact ⟨cause, rfl⟩
    | ok frame => rw [built] at none; cases none
  detached values σ tag := by
    simp only [Values.bindImage, Session.disk_detached, Frame.build_bare]

section BindsBy

variable {key : Text} {store : Values → Session → Text → Except Error Values}
  {value? : Disk → Option Text}

theorem tame_bindsBy (h : Stores store value?) : Tame (bindsBy key store) := by
  refine tame_edit (fun own σ => ?_) fun {own own' σ values} source done => ?_
  · have same : store own.values σ.detached = store own.values σ := by
      funext tag
      exact h.detached own.values σ tag
    rw [same]
    rfl
  · cases declared : declares own σ.config key with
    | false =>
      rw [declaredTag_of_not_declares declared] at done
      cases done
    | true =>
      have declared' : declares own' σ.config key = true := by
        rw [declares, ← source]
        exact declared
      rw [declaredTag_of_declares declared] at done
      rw [declaredTag_of_declares declared']
      have done : store own.values σ (σ.config.tag key) = .ok values := done
      cases known : value? σ.disk with
      | none =>
        obtain ⟨cause, stops⟩ := h.refused known own.values (σ.config.tag key)
        rw [stops] at done
        cases done
      | some v =>
        obtain ⟨new, works, -⟩ := h.stored known own'.values (σ.config.tag key)
        exact ⟨new, works⟩

/-- All that a binding can do: it puts the value under the tag, or fails and changes nothing. -/
theorem bindsBy_cases (h : Stores store value?) {own : Fragment} {cs : List Segment}
    {σ τ : Session} {r : Except Error Unit} {t : Segment}
    (done : bindsBy key store (.node own cs) σ = (r, t, τ)) :
    τ = σ ∧
      ((∃ v values, value? σ.disk = some v ∧ declares own σ.config key = true ∧
          values.bindings = own.values.bindings.put (σ.config.tag key) v ∧ r = .ok () ∧
          t = .node { own with values } cs) ∨
        (∃ cause, r = .error cause ∧ t = .node own cs ∧
          ∀ v, value? σ.disk = some v → declares own σ.config key = false)) := by
  obtain ⟨rfl, cases⟩ := edit_cases done
  refine ⟨rfl, ?_⟩
  cases declared : declares own τ.config key with
  | false =>
    rw [declaredTag_of_not_declares declared] at cases
    rcases cases with ⟨values, stored, -⟩ | ⟨cause, -, rfl, rfl⟩
    · cases stored
    · exact .inr ⟨cause, rfl, rfl, fun _ _ => rfl⟩
  | true =>
    rw [declaredTag_of_declares declared] at cases
    cases known : value? τ.disk with
    | none =>
      obtain ⟨_, stops⟩ := h.refused known own.values (τ.config.tag key)
      rcases cases with ⟨values, stored, -⟩ | ⟨cause, -, rfl, rfl⟩
      · have stored : store own.values τ (τ.config.tag key) = .ok values := stored
        rw [stops] at stored
        cases stored
      · exact .inr ⟨cause, rfl, rfl, fun v e => by cases e⟩
    | some v =>
      obtain ⟨new, works, bound⟩ := h.stored known own.values (τ.config.tag key)
      rcases cases with ⟨values, stored, rfl, rfl⟩ | ⟨cause, stops, -⟩
      · have stored : store own.values τ (τ.config.tag key) = .ok values := stored
        rw [works] at stored
        cases stored
        exact .inl ⟨v, new, rfl, rfl, bound, rfl, rfl⟩
      · have stops : store own.values τ (τ.config.tag key) = .error cause := stops
        rw [works] at stops
        cases stops

end BindsBy

namespace Action

/-- An action other than a merge is a binding. -/
theorem exists_bindsBy {a : Action} (binds : a ≠ .merge) :
    ∃ key store value?, Stores store value? ∧ a.call = bindsBy key store ∧
      ∀ disk, a.stored? disk = (value? disk).map fun v => (key, v) := by
  cases a with
  | merge => exact absurd rfl binds
  | bind key value encode => exact ⟨key, _, _, stores_bind value encode, rfl, fun _ => rfl⟩
  | bindBytes key value encode label =>
    refine ⟨key, _, _, stores_bindBytes value encode label, rfl, fun _ => ?_⟩
    rw [stored?, Option.map_map]
    rfl
  | bindImage key path placement =>
    refine ⟨key, _, _, stores_bindImage path placement, rfl, fun disk => ?_⟩
    rw [stored?]
    cases Frame.build disk path placement with
    | error cause => rfl
    | ok frame => rfl

/-- All that an action other than a merge can do. -/
theorem call_cases {a : Action} (binds : a ≠ .merge) {own : Fragment} {cs : List Segment}
    {σ τ : Session} {r : Except Error Unit} {t : Segment}
    (done : a.call (.node own cs) σ = (r, t, τ)) :
    τ = σ ∧
      ((∃ key v values, a.stored? σ.disk = some (key, v) ∧ declares own σ.config key = true ∧
          values.bindings = own.values.bindings.put (σ.config.tag key) v ∧ r = .ok () ∧
          t = .node { own with values } cs) ∨
        (∃ cause, r = .error cause ∧ t = .node own cs ∧
          ∀ key v, a.stored? σ.disk = some (key, v) → declares own σ.config key = false)) := by
  obtain ⟨key, store, value?, stores, same, stored⟩ := exists_bindsBy binds
  rw [same] at done
  rw [stored]
  obtain ⟨rfl, ⟨v, values, known, declared, bound, rfl, rfl⟩ | ⟨cause, rfl, rfl, undeclared⟩⟩ :=
    bindsBy_cases stores done
  · refine ⟨rfl, .inl ⟨key, v, values, ?_, declared, bound, rfl, rfl⟩⟩
    rw [known]
    rfl
  · refine ⟨rfl, .inr ⟨cause, rfl, rfl, fun k v e => ?_⟩⟩
    obtain ⟨w, known, e⟩ := Option.map_eq_some_iff.1 e
    cases e
    exact undeclared v known

end Action

theorem tame_call (a : Action) : Tame a.call := by
  by_cases merges : a = .merge
  · rw [merges]
    exact tame_merge
  · obtain ⟨key, store, value?, stores, same, -⟩ := Action.exists_bindsBy merges
    rw [same]
    exact tame_bindsBy stores

end DocumentMerge.Segment

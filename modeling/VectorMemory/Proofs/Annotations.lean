import VectorMemory.Proofs.Constants
import VectorMemory.Proofs.LifeCycle
import VectorMemory.Proofs.Lookup

/-! What is recorded of a new object agrees with the index. A mark counts the
vectors of a span one by one, the index adds up the lengths of its runs. Both
find the same positions, and since no vector is shown twice, no mark of an object
takes the place of another one. -/
namespace VectorMemory

namespace Location

theorem before_trans {a b c : Location} (first : a.before b = true) (second : b.before c = true) :
    a.before c = true := by
  rw [before_iff] at *
  omega

theorem before_of_not_before {a b : Location} (late : ¬a.before b = true) (other : a ≠ b) :
    b.before a = true := by
  rw [before_iff] at *
  by_contra level
  have ranks : a.region.rank = b.region.rank := by omega
  have addresses : a.address = b.address := by omega
  apply other
  cases a
  cases b
  rw [Location.mk.injEq]
  exact ⟨Region.rank_injective ranks, addresses⟩

end Location

/-! ### Marks -/

namespace Marks

def Ordered (marks : Marks) : Prop :=
  marks.Pairwise fun a b => a.1.before b.1 = true

theorem insert_perm {l : Location} {a : Mark} {marks : Marks} (new : l ∉ marks.map Prod.fst) :
    (insert l a marks).Perm ((l, a) :: marks) := by
  induction marks with
  | nil => exact .refl _
  | cons head rest ih =>
    obtain ⟨first, b⟩ := head
    rw [List.map_cons, List.mem_cons, not_or] at new
    rw [insert]
    split
    · exact .refl _
    · rw [if_neg new.1]
      exact ((ih new.2).cons _).trans (.swap _ _ _)

theorem mem_insert {l : Location} {a : Mark} {marks : Marks} {hit : Location × Mark}
    (member : hit ∈ insert l a marks) : hit = (l, a) ∨ hit ∈ marks := by
  induction marks with
  | nil => exact .inl (List.mem_singleton.mp member)
  | cons head rest ih =>
    obtain ⟨first, b⟩ := head
    rw [insert] at member
    split at member
    · exact List.mem_cons.mp member
    · split at member
      · exact (List.mem_cons.mp member).imp_right (.tail _)
      · rcases List.mem_cons.mp member with rfl | later
        · exact .inr List.mem_cons_self
        · exact (ih later).imp_right (.tail _)

theorem Ordered.insert {marks : Marks} (ordered : marks.Ordered) (l : Location) (a : Mark) :
    (insert l a marks).Ordered := by
  induction marks with
  | nil => exact List.pairwise_singleton _ _
  | cons head rest ih =>
    obtain ⟨first, b⟩ := head
    obtain ⟨above, rest⟩ := List.pairwise_cons.mp ordered
    rw [Marks.insert]
    split
    · next early =>
      refine List.pairwise_cons.mpr ⟨fun hit member => ?_, ordered⟩
      rcases List.mem_cons.mp member with rfl | later
      · exact early
      · exact Location.before_trans early (above hit later)
    · next late =>
      split
      · next same =>
        subst same
        exact List.pairwise_cons.mpr ⟨above, rest⟩
      · next other =>
        refine List.pairwise_cons.mpr ⟨fun hit member => ?_, ih rest⟩
        rcases mem_insert member with rfl | old
        · exact Location.before_of_not_before late other
        · exact above hit old

theorem ordered_ofList (hits : List (Location × Mark)) : (ofList hits).Ordered := by
  unfold ofList
  apply List.foldlRecOn
  · exact List.Pairwise.nil
  · exact fun marks ordered hit _ => ordered.insert hit.1 hit.2

theorem foldl_insert_perm {hits : List (Location × Mark)} {marks : Marks}
    (distinct : ((hits ++ marks).map Prod.fst).Nodup) :
    (hits.foldl (fun all hit => insert hit.1 hit.2 all) marks).Perm (hits ++ marks) := by
  induction hits generalizing marks with
  | nil => exact .refl _
  | cons hit rest ih =>
    rw [List.cons_append, List.map_cons, List.nodup_cons, List.map_append, List.mem_append,
      not_or] at distinct
    have entered : (insert hit.1 hit.2 marks).Perm (hit :: marks) := insert_perm distinct.1.2
    have moved : (rest ++ insert hit.1 hit.2 marks).Perm (hit :: (rest ++ marks)) :=
      (entered.append_left rest).trans List.perm_middle
    refine (ih ?_).trans moved
    rw [(moved.map Prod.fst).nodup_iff, List.map_cons, List.nodup_cons, List.map_append,
      List.mem_append, not_or]
    exact distinct

theorem ofList_perm {hits : List (Location × Mark)} (distinct : (hits.map Prod.fst).Nodup) :
    (ofList hits).Perm hits := by
  have all := @foldl_insert_perm hits [] (by rwa [List.append_nil])
  rwa [List.append_nil] at all

end Marks

/-! ### Marks and the index -/

theorem Registry.Coherent.span_nodup {r : Registry} (coherent : r.Coherent) {o : Object}
    (member : o ∈ r.objects) (live : o.supersededBy = none) : o.span.toList.Nodup := by
  -- A vector shown twice would be found at two positions.
  rw [List.nodup_iff_getElem?_ne_getElem?]
  intro i j before inside same
  obtain ⟨l, there⟩ : ∃ l, o.span.toList[j]? = some l := ⟨_, List.getElem?_eq_getElem inside⟩
  have first := coherent.resolve_eq_some.mpr ⟨member, live, same.trans there⟩
  have second := coherent.resolve_eq_some.mpr ⟨member, live, there⟩
  rw [first, Option.some.injEq, Prod.mk.injEq] at second
  exact Nat.ne_of_lt before second.2

namespace Planner

variable {p q r : Planner} {c : Command} {reply : Reply} {o : Object} {new later : List Object}

/-- The vectors of an object that some tracepoint accepts are marked, in order,
each with the position at which the planner finds it. -/
structure Annotates (tracepoints : List Tracepoint) (p : Planner) (o : Object) (marks : Marks) :
    Prop where
  keys : ∀ l, l ∈ marks.map Prod.fst ↔
    l ∈ o.span.toList ∧ ∃ t ∈ tracepoints, t.accepts l o.name = true
  ordered : marks.Ordered
  resolved : ∀ l a, (l, a) ∈ marks → ∃ k, a = ⟨o.name, k⟩ ∧ p.resolve l = some ⟨o, k⟩

theorem marks_eq (p : Planner) (o : Object) : p.marks o =
    .ofList ((o.span.toList.zipIdx.filter fun hit => p.tracepoints.any (·.accepts hit.1 o.name)).map
      fun hit => (hit.1, ⟨o.name, hit.2⟩)) := by
  unfold marks
  split
  · next none =>
    rw [List.isEmpty_iff.mp none]
    simp [Marks.ofList]
  · rfl

theorem mem_marks (nodup : o.span.toList.Nodup) {l : Location} {a : Mark} :
    (l, a) ∈ p.marks o ↔ ∃ k, o.span.toList[k]? = some l ∧ a = ⟨o.name, k⟩ ∧
      ∃ t ∈ p.tracepoints, t.accepts l o.name = true := by
  rw [marks_eq]
  generalize accepted : (fun hit : Location × Nat => p.tracepoints.any (·.accepts hit.1 o.name)) = test
  have distinct : (((o.span.toList.zipIdx.filter test).map
      fun hit => (hit.1, (⟨o.name, hit.2⟩ : Mark))).map Prod.fst).Nodup := by
    rw [List.map_map]
    have sublist := (List.filter_sublist (p := test) (l := o.span.toList.zipIdx)).map Prod.fst
    rw [List.zipIdx_map_fst] at sublist
    exact nodup.sublist sublist
  rw [(Marks.ofList_perm distinct).mem_iff, List.mem_map]
  subst accepted
  simp only [List.mem_filter, List.any_eq_true, Prod.exists, List.mk_mem_zipIdx_iff_getElem?,
    Prod.mk.injEq]
  constructor
  · rintro ⟨_, k, ⟨position, hit⟩, rfl, rfl⟩
    exact ⟨k, position, rfl, hit⟩
  · rintro ⟨k, position, rfl, hit⟩
    exact ⟨l, k, ⟨position, hit⟩, rfl, rfl⟩

theorem resolve_eq_some {l : Location} {k : Nat} :
    p.resolve l = some ⟨o, k⟩ ↔ p.registry.resolve l = some (o, k) := by
  simp [Planner.resolve]

theorem annotates_marks (coherent : q.registry.Coherent) (member : o ∈ q.registry.objects)
    (live : o.supersededBy = none) : Annotates p.tracepoints q o (p.marks o) := by
  have nodup := coherent.span_nodup member live
  refine ⟨fun l => ?_, marks_eq p o ▸ Marks.ordered_ofList _, fun l a marked => ?_⟩
  · rw [List.mem_map, List.mem_iff_getElem?]
    constructor
    · rintro ⟨⟨_, a⟩, marked, rfl⟩
      obtain ⟨k, position, -, hit⟩ := (mem_marks nodup).mp marked
      exact ⟨⟨k, position⟩, hit⟩
    · rintro ⟨⟨k, position⟩, hit⟩
      exact ⟨(l, ⟨o.name, k⟩), (mem_marks nodup).mpr ⟨k, position, rfl, hit⟩, rfl⟩
  · obtain ⟨k, position, rfl, -⟩ := (mem_marks nodup).mp marked
    exact ⟨k, rfl, resolve_eq_some.mpr (coherent.resolve_eq_some.mpr ⟨member, live, position⟩)⟩

/-! ### What is recorded -/

def records (p : Planner) (o : Object) : List Event :=
  if p.marks o = [] then [] else [.placed .beforeProgram (p.marks o)]

theorem events_mark (p : Planner) (o : Object) :
    (p.mark o).recorder.events = p.recorder.events.map (· ++ p.records o) := by
  unfold mark records
  cases marked : p.marks o with
  | nil => simp
  | cons first rest => simp [Recorder.record]

theorem records_congr (same : q.tracepoints = p.tracepoints) (o : Object) :
    q.records o = p.records o := by
  rw [records, records, marks_congr same]

/-- Live objects have been added behind all others, each with its record. -/
structure Adds (p : Planner) (new : List Object) (q : Planner) : Prop where
  slots : q.registry.slots = p.registry.slots ++ new.map some
  live : ∀ o ∈ new, o.isLive = true
  tracepoints : q.tracepoints = p.tracepoints
  events : q.recorder.events = p.recorder.events.map (· ++ new.flatMap p.records)

namespace Adds

theorem congr (adds : Adds p new q) (registry : r.registry = q.registry)
    (tracepoints : r.tracepoints = q.tracepoints) (recorder : r.recorder = q.recorder) :
    Adds p new r := by
  refine ⟨?_, adds.live, tracepoints.trans adds.tracepoints, ?_⟩
  · rw [registry]
    exact adds.slots
  · rw [recorder]
    exact adds.events

theorem refl (p : Planner) : Adds p [] p := by
  refine ⟨by simp, by simp, rfl, by simp⟩

theorem trans (first : Adds p new q) (second : Adds q later r) : Adds p (new ++ later) r := by
  refine ⟨?_, ?_, second.tracepoints.trans first.tracepoints, ?_⟩
  · rw [second.slots, first.slots, List.append_assoc, ← List.map_append]
  · exact List.forall_mem_append.mpr ⟨first.live, second.live⟩
  · have same : q.records = p.records := funext (records_congr first.tracepoints)
    rw [second.events, first.events, Option.map_map, same]
    simp [Function.comp_def]

theorem arrivals_eq (adds : Adds p new q) (before : p.registry.Coherent)
    (after : q.registry.Coherent) : arrivals p q = new := by
  have objects : q.registry.objects = p.registry.objects ++ new := by
    simp [Registry.objects, adds.slots]
  have old : ∀ o ∈ p.registry.objects, ¬(p.registry.object? o.id).isNone = true := by
    intro o member
    rw [before.mem_objects.mp member]
    exact Bool.false_ne_true
  have added : ∀ o ∈ new, (p.registry.object? o.id).isNone = true := by
    intro o member
    obtain ⟨k, position⟩ := List.mem_iff_getElem?.mp member
    have found : q.registry.object? (p.registry.nextId + k) = some o := by
      rw [Registry.object?_eq_some, adds.slots, Registry.nextId,
        List.getElem?_append_right (Nat.le_add_right _ _), Nat.add_sub_cancel_left,
        List.getElem?_map, position]
      rfl
    rw [after.ids _ _ found, Option.isNone_iff_eq_none]
    by_contra taken
    obtain ⟨x, known⟩ := Option.ne_none_iff_exists'.mp taken
    exact Nat.not_lt_of_le (Nat.le_add_right _ _) (Registry.lt_of_object? known)
  rw [arrivals, objects, List.filter_append, List.filter_eq_self.mpr added,
    List.filter_eq_nil_iff.mpr old, List.nil_append]

end Adds

theorem Placed.adds {region : Region} (placed : Placed p region o q) : Adds p [o] q := by
  refine ⟨?_, by simpa using placed.places.live, placed.rest .tracepoints (by simp), ?_⟩
  · obtain ⟨index, -, made⟩ := placed.places.result
    rw [made]
    rfl
  · rw [placed.recorded, events_mark, List.flatMap_singleton]

theorem Emits.adds {name : String} {requested : Option Extent} {tensor : Tensor} {bytes : Bytes}
    (emits : Emits p name requested tensor bytes o q) : Adds p [o] q := by
  obtain ⟨middle, tally, placed, -, rfl⟩ := emits.result
  exact placed.adds.congr rfl rfl rfl

theorem adds_constant {name : String} {requested : Option Extent} (formed : p.memory.Formed)
    (done : constant name requested p = .done o q) :
    ∃ new, Adds p new q ∧ (p.registry.has name = false → new = [o]) := by
  rcases constant_eq_done formed done with ⟨known, rfl⟩ | ⟨tensor, bytes, emits⟩
  · refine ⟨[], .refl q, fun unplaced => ?_⟩
    rw [has_of_get known] at unplaced
    cases unplaced
  · exact ⟨[o], emits.adds, fun _ => rfl⟩

theorem adds_weights {name : String} {bias : Option String} {placed : Object × Option Object}
    (sound : p.memory.Sound) (done : weights name bias p = .done placed q) :
    ∃ new, Adds p new q := by
  obtain ⟨w, middle, first, second⟩ := Action.bind_eq_done.mp done
  obtain ⟨new, adds, -⟩ := adds_constant sound.formed first
  cases bias with
  | none =>
    cases second
    exact ⟨new, adds⟩
  | some bias =>
    obtain ⟨b, last, emitted, final⟩ := Action.bind_eq_done.mp second
    cases final
    obtain ⟨later, adds', -⟩ := adds_constant (sound_constant sound first).formed emitted
    exact ⟨new ++ later, adds.trans adds'⟩

/-! ### Commands -/

def adding : Command → Bool
  | .input .. | .activation .. | .scratch .. | .temp .. | .constant .. | .weights .. | .output .. =>
      true
  | _ => false

def announced? (p : Planner) : Command → Reply → Option Object
  | .input .., .object o | .activation .., .object o | .scratch .., .object o
  | .temp .., .object o => some o
  | .constant name _, .object o => if p.registry.has name then none else some o
  | .output _, .placement ⟨o, some _⟩ => some o
  | _, _ => none

/-- Such a command adds objects, or makes an object an output where it is. -/
theorem adds_or_pins (sound : p.memory.Sound) (kind : adding c = true)
    (done : perform c p = .done reply q) :
    (∃ new, Adds p new q ∧ ∀ o, announced? p c reply = some o → new = [o]) ∨
      (announced? p c reply = none ∧ q.recorder = p.recorder ∧
        ∃ id f, q.registry = p.registry.update id f) := by
  cases c with
  | input name extent consumers =>
    obtain ⟨o, entered, rfl⟩ := replying_eq_done.mp done
    obtain ⟨middle, placed, rfl, -⟩ := input_eq_done sound.formed entered
    refine .inl ⟨[o], placed.adds.congr rfl rfl rfl, fun x told => ?_⟩
    cases told
    rfl
  | activation name extent consumers | scratch name extent consumers
  | temp name extent consumers =>
    obtain ⟨o, entered, rfl⟩ := replying_eq_done.mp done
    obtain ⟨placed, -⟩ := allocate_eq_done sound.formed entered
    refine .inl ⟨[o], placed.adds, fun x told => ?_⟩
    cases told
    rfl
  | constant name requested =>
    obtain ⟨o, entered, rfl⟩ := replying_eq_done.mp done
    obtain ⟨new, adds, first⟩ := adds_constant sound.formed entered
    refine .inl ⟨new, adds, fun x told => ?_⟩
    simp only [announced?, Option.ite_none_left_eq_some] at told
    obtain ⟨unplaced, same⟩ := told
    cases same
    exact first (Bool.eq_false_iff.mpr unplaced)
  | weights name bias =>
    obtain ⟨⟨w, b⟩, entered, rfl⟩ := replying_eq_done.mp done
    obtain ⟨new, adds⟩ := adds_weights sound entered
    refine .inl ⟨new, adds, fun x told => ?_⟩
    cases told
  | output name =>
    obtain ⟨placement, entered, rfl⟩ := replying_eq_done.mp done
    obtain ⟨produced, -, ⟨-, rfl, rfl⟩ | ⟨o, middle, -, rfl, placed, rfl, -⟩⟩ :=
      output_cases sound.formed entered
    · exact .inr ⟨rfl, rfl, produced.id, _, rfl⟩
    · refine .inl ⟨[o], placed.adds.congr rfl rfl rfl, fun x told => ?_⟩
      cases told
      rfl
  | _ => cases kind

theorem arrivals_recorded (sound : p.memory.Sound) (kind : adding c = true)
    (done : perform c p = .done reply q) :
    (∀ o, announced? p c reply = some o → arrivals p q = [o]) ∧
      (∀ o ∈ arrivals p q, o.isLive = true) ∧
      q.recorder.events = p.recorder.events.map (· ++ (arrivals p q).flatMap p.records) := by
  have before : p.registry.Coherent := sound.coherent
  have after : q.registry.Coherent := (sound_of_done sound done).coherent
  rcases adds_or_pins sound kind done with
    ⟨new, adds, told⟩ | ⟨silent, recorder, id, f, registry⟩
  · rw [adds.arrivals_eq before after]
    exact ⟨told, adds.live, adds.events⟩
  · have none : arrivals p q = [] := by
      refine List.filter_eq_nil_iff.mpr fun o member absent => ?_
      have found := after.mem_objects.mp member
      rw [registry, Registry.object?_update, Option.isNone_iff_eq_none.mp absent] at found
      simp at found
    rw [none, silent, recorder]
    simp

/-! ### Runs -/

theorem Move.listening {leaky : Bool} {touched : List Part} (move : Move leaky touched p q) :
    q.recorder.events.isSome = p.recorder.events.isSome := by
  cases move with
  | recorder _ _ same => exact same
  | @take region | @place region => cases region <;> rfl
  | staging | blob | tally | input | output | touch => rfl

theorem Moves.listening {leaky : Bool} {touched : List Part} (moves : Moves leaky touched p q) :
    q.recorder.events.isSome = p.recorder.events.isSome := by
  induction moves with
  | refl => rfl
  | tail _ move ih => exact move.listening.trans ih

theorem listening_perform (sound : p.memory.Sound) (left : (perform c p).state? = some q) :
    q.recorder.events.isSome = p.recorder.events.isSome := by
  cases kind : growing c with
  | true =>
    rw [Outcome.state?_eq_left?] at left
    exact Moves.listening ((moves_perform true kind).left p q left)
  | false =>
    cases c with
    | blend name extent consumers blendees locations =>
      rcases Outcome.state?_eq_some.mp left with ⟨reply, done⟩ | ⟨cause, failed⟩
      · obtain ⟨o, blended, -⟩ := replying_eq_done.mp done
        obtain ⟨_, middle, entered, final⟩ := Action.bind_eq_done.mp blended
        obtain ⟨registry, -, rfl⟩ := Action.zoom_eq_done.mp entered
        cases final
        exact Option.isSome_map
      · rw [perform_blend_failed sound.coherent failed]
    | sweep =>
      have same : Part.Same .recorder p q := same_of_perform left (by simp [touches])
      exact congrArg (fun recorder : Recorder => recorder.events.isSome) same
    | _ => cases kind

theorem tracing_follow {cs : List Command} (sound : p.memory.Sound) (run : follow cs p = some q) :
    q.tracepoints = p.tracepoints ∧ q.recorder.events.isSome = p.recorder.events.isSome := by
  induction cs generalizing p with
  | nil =>
    cases run
    exact ⟨rfl, rfl⟩
  | cons c rest ih =>
    obtain ⟨middle, left, later⟩ := follow_cons.mp run
    obtain ⟨tracepoints, listening⟩ := ih (sound_perform sound left) later
    have same : Part.Same .tracepoints p middle :=
      same_of_perform left (by cases c <;> simp [touches])
    exact ⟨tracepoints.trans same, listening.trans (listening_perform sound left)⟩

/-- A command that places objects records one event for each of them, with the
vectors that some tracepoint accepts as keys, or none if there is no such vector.
Each key is marked with the name of the object and with the position at which it
is found right afterwards. -/
theorem arrivals_annotated {config : Config} {cs : List Command}
    (started : start config .recording = .ok p) (run : follow cs p = some q)
    (kind : adding c = true) (done : perform c q = .done reply r) :
    (∀ o, announced? q c reply = some o → arrivals q r = [o]) ∧
      r.recorder.contents = q.recorder.contents ++ (arrivals q r).flatMap q.records ∧
      ∀ o ∈ arrivals q r, Annotates config.tracepoints r o (q.marks o) := by
  have sound := sound_follow (sound_start started) run
  have after : r.registry.Coherent := (sound_of_done sound done).coherent
  obtain ⟨told, live, events⟩ := arrivals_recorded sound kind done
  obtain ⟨tracepoints, listening⟩ := tracing_follow (sound_start started) run
  obtain ⟨_, -, made⟩ := bind_eq_ok.mp started
  cases made
  refine ⟨told, ?_, fun o arrived => ?_⟩
  · obtain ⟨heard, same⟩ := Option.isSome_iff_exists.mp listening
    rw [Recorder.contents, Recorder.contents, events, same]
    rfl
  · have member := (List.mem_filter.mp arrived).1
    have current : o.supersededBy = none := by simpa [Object.isLive] using live o arrived
    have annotates := @annotates_marks q r o after member current
    rwa [tracepoints] at annotates

/-- An object stays between the vectors of another one, which is swept, and the end. -/
def straddled : List Command :=
  [.activation "a" ⟨2, 2⟩ [], .activation "b" ⟨1, 1⟩ ["x"], .sweep]

/-- The input lies on both sides of an older object. Two of its vectors are marked. -/
theorem arrivals_annotated_straddled :
    ∃ p q r o, start ⟨⟨.float32, 1, 6, 0, 0⟩, [⟨some .dram0, some ⟨1, 4⟩, none⟩]⟩ .recording = .ok p ∧
      follow straddled p = some q ∧ perform (.input "c" ⟨4, 4⟩ []) q = .done (.object o) r ∧
      r.recorder.contents = q.recorder.contents ++
        [.placed .beforeProgram [(⟨.dram0, 1⟩, ⟨"c", 1⟩), (⟨.dram0, 3⟩, ⟨"c", 2⟩)]] ∧
      r.resolve ⟨.dram0, 3⟩ = some ⟨o, 2⟩ := by
  have computed : ((start ⟨⟨.float32, 1, 6, 0, 0⟩, [⟨some .dram0, some ⟨1, 4⟩, none⟩]⟩
      .recording).toOption.bind fun p => (follow straddled p).bind fun q =>
        (input "c" ⟨4, 4⟩ [] q).result?.map fun answer => q.marks answer.1) =
      some [(⟨.dram0, 1⟩, ⟨"c", 1⟩), (⟨.dram0, 3⟩, ⟨"c", 2⟩)] := by decide +kernel
  obtain ⟨p, begun, left⟩ := Option.bind_eq_some_iff.mp computed
  obtain ⟨q, run, left⟩ := Option.bind_eq_some_iff.mp left
  obtain ⟨⟨o, r⟩, served, marks⟩ := Option.map_eq_some_iff.mp left
  have started := toOption_eq_some.mp begun
  have done : perform (.input "c" ⟨4, 4⟩ []) q = .done (.object o) r :=
    replying_eq_done.mpr ⟨o, Outcome.result?_eq_some.mp served, rfl⟩
  obtain ⟨told, contents, annotates⟩ := arrivals_annotated started run rfl done
  rw [told o rfl] at contents annotates
  refine ⟨p, q, r, o, started, run, done, ?_, ?_⟩
  · rw [contents, List.flatMap_singleton, records, marks]
    rfl
  · have marked : (⟨.dram0, 3⟩, ⟨"c", 2⟩) ∈ q.marks o := by
      rw [marks]
      exact .tail _ (.head _)
    obtain ⟨k, same, found⟩ := (annotates o (.head _)).resolved _ _ marked
    have position : 2 = k := congrArg Mark.offset same
    rwa [← position] at found

end Planner

end VectorMemory

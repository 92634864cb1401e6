import Mathlib.Logic.Function.Basic
import VectorMemory.Proofs.Operations

/-! The spaces and the registry together. Every vector that an object owns is
taken in its space, and no two objects own the same one. This is kept by the
changes that operations are made of. -/
namespace VectorMemory

/-- The space of a region; all of them but the last are heaps. -/
structure Space.Serves (s : Space) (region : Region) : Prop where
  sound : s.Sound
  home : s.region = region
  heap : region ≠ .temp → s.isHeap = true

theorem Space.Serves.shape {s t : Space} {region : Region} (serves : s.Serves region)
    (sound : t.Sound) (shape : SameShape s t) : t.Serves region :=
  ⟨sound, shape.region.trans serves.home, fun heap => shape.isHeap.trans (serves.heap heap)⟩

structure Memory where
  space : Region → Space
  registry : Registry

namespace Memory

def Free (m : Memory) (l : Location) : Prop :=
  (m.space l.region).Free l.address

def Taken (m : Memory) (l : Location) : Prop :=
  (m.space l.region).Taken l.address

def Formed (m : Memory) : Prop :=
  ∀ region, (m.space region).Serves region

structure Sound (m : Memory) : Prop where
  formed : m.Formed
  coherent : m.registry.Coherent
  taken : ∀ i o, m.registry.object? i = some o → ∀ l ∈ o.owned.toList, m.Taken l
  distinct : ∀ i o, m.registry.object? i = some o → o.owned.toList.Nodup
  exclusive : ∀ i o j x, m.registry.object? i = some o → m.registry.object? j = some x →
    ∀ l ∈ o.owned.toList, l ∈ x.owned.toList → i = j
  superseded : ∀ i o, m.registry.object? i = some o → o.isLive = false → o.owned = .empty

variable {m m' : Memory}

/-! ### Taking vectors -/

theorem Formed.update {region : Region} {t : Space} (formed : m.Formed)
    (serves : t.Serves region) (r : Registry) :
    Formed ⟨Function.update m.space region t, r⟩ := by
  intro other
  dsimp only
  by_cases same : other = region
  · subst same
    rwa [Function.update_self]
  · rw [Function.update_of_ne same]
    exact formed other

structure Takes (m : Memory) (span : Span) (m' : Memory) : Prop where
  formed : m'.Formed
  nodup : span.toList.Nodup
  fresh : ∀ l ∈ span.toList, ¬m.Taken l
  taken : ∀ l, m'.Taken l ↔ m.Taken l ∨ l ∈ span.toList
  free : ∀ l, m'.Free l ↔ m.Free l ∧ l ∉ span.toList

theorem Formed.takes {region : Region} {count : Nat} {span : Span} {t : Space} (formed : m.Formed)
    (allocated : Space.allocate count (m.space region) = .done span t) (r : Registry) :
    Takes m span ⟨Function.update m.space region t, r⟩ := by
  have grants := Space.allocate_grants (formed region).sound allocated
  have home := (formed region).home
  have serves := (formed region).shape grants.sound grants.shape
  have within : ∀ l ∈ span.toList, l.region = region := fun l inside =>
    (grants.within l inside).trans home
  refine ⟨formed.update serves r, grants.nodup, ?_, ?_, ?_⟩
  · intro l inside
    unfold Taken
    rw [within l inside]
    exact grants.fresh l inside
  · intro l
    unfold Taken
    by_cases same : l.region = region
    · have taken := grants.taken l.address
      rw [home, ← same] at taken
      subst same
      simpa using taken
    · have outside : l ∉ span.toList := fun inside => same (within l inside)
      simp [Function.update_of_ne same, outside]
  · intro l
    unfold Free
    by_cases same : l.region = region
    · have free := grants.free l.address
      rw [home, ← same] at free
      subst same
      simpa using free
    · have outside : l ∉ span.toList := fun inside => same (within l inside)
      simp [Function.update_of_ne same, outside]

/-! ### What keeps a memory sound -/

theorem Sound.touch {consumers : ObjectId → Object → NameSet} {r : Registry} (sound : m.Sound)
    (touched : Registry.Touched consumers m.registry r) : Sound ⟨m.space, r⟩ := by
  refine ⟨sound.formed, touched.coherent sound.coherent, ?_, ?_, ?_, ?_⟩
  · intro i o found
    obtain ⟨b, before, rfl⟩ := touched.object?_eq_some found
    exact sound.taken i b before
  · intro i o found
    obtain ⟨b, before, rfl⟩ := touched.object?_eq_some found
    exact sound.distinct i b before
  · intro i o j x found found'
    obtain ⟨b, before, rfl⟩ := touched.object?_eq_some found
    obtain ⟨c, before', rfl⟩ := touched.object?_eq_some found'
    exact sound.exclusive i b j c before before'
  · intro i o found
    obtain ⟨b, before, rfl⟩ := touched.object?_eq_some found
    exact sound.superseded i b before

theorem Sound.take {span : Span} {space : Region → Space} (sound : m.Sound)
    (takes : Takes m span ⟨space, m.registry⟩) : Sound ⟨space, m.registry⟩ := by
  refine ⟨takes.formed, sound.coherent, ?_, sound.distinct, sound.exclusive, sound.superseded⟩
  intro i o found l inside
  exact (takes.taken l).mpr (.inl (sound.taken i o found l inside))

theorem Sound.place {o : Object} (sound : m.Sound) (takes : Takes m o.span m')
    (places : Registry.Places m.registry o m'.registry) : m'.Sound := by
  -- what an object owned before is not given out again
  have unowned : ∀ i x, m.registry.object? i = some x → ∀ l ∈ x.owned.toList,
      l ∉ o.span.toList := fun i x found l inside given =>
    takes.fresh l given (sound.taken i x found l inside)
  refine ⟨takes.formed, places.coherent sound.coherent, ?_, ?_, ?_, ?_⟩
  · intro i x found l inside
    rw [takes.taken]
    rcases places.origin found with ⟨-, rfl⟩ | before
    · rw [places.owned] at inside
      exact .inr inside
    · exact .inl (sound.taken i x before l inside)
  · intro i x found
    rcases places.origin found with ⟨-, rfl⟩ | before
    · rw [places.owned]
      exact takes.nodup
    · exact sound.distinct i x before
  · intro i x j y found found' l inside inside'
    rcases places.origin found with ⟨rfl, rfl⟩ | before <;>
      rcases places.origin found' with ⟨rfl, rfl⟩ | before'
    · rfl
    · rw [places.owned] at inside
      exact absurd inside (unowned j y before' l inside')
    · rw [places.owned] at inside'
      exact absurd inside' (unowned i x before l inside)
    · exact sound.exclusive i x j y before before' l inside inside'
  · intro i x found dead
    rcases places.origin found with ⟨-, rfl⟩ | before
    · rw [places.live] at dead
      cases dead
    · exact sound.superseded i x before dead

theorem Sound.blend {ids : List ObjectId} {o : Object} {r : Registry} (sound : m.Sound)
    (blends : Registry.Blends m.registry ids o r) : Sound ⟨m.space, r⟩ := by
  have distinct : o.owned.toList.Nodup := by
    rw [blends.owned, List.nodup_flatMap, List.pairwise_filterMap]
    constructor
    · intro b member
      obtain ⟨i, -, found⟩ := List.mem_filterMap.mp member
      exact sound.distinct i b found
    · apply blends.distinct.imp
      intro i j other b found c found' l inside inside'
      exact other (sound.exclusive i b j c found found' l inside inside')
  -- what a blend owns is owned by none of the objects that stay as they are
  have moved : ∀ i b, m.registry.object? i = some b → i ∉ ids → ∀ l ∈ b.owned.toList,
      l ∉ o.owned.toList := by
    intro i b found outside l inside gathered
    obtain ⟨j, member, c, found', inside'⟩ := blends.mem_owned.mp gathered
    rw [sound.exclusive i b j c found found' l inside inside'] at outside
    exact outside member
  refine ⟨sound.formed, blends.coherent sound.coherent, ?_, ?_, ?_, ?_⟩
  · intro i x found l inside
    rcases blends.object?_cases found with ⟨-, rfl⟩ | ⟨b, before, ⟨-, rfl⟩ | ⟨-, rfl⟩⟩
    · obtain ⟨j, -, b, found, inside⟩ := blends.mem_owned.mp inside
      exact sound.taken j b found l inside
    · cases inside
    · exact sound.taken i x before l inside
  · intro i x found
    rcases blends.object?_cases found with ⟨-, rfl⟩ | ⟨b, before, ⟨-, rfl⟩ | ⟨-, rfl⟩⟩
    · exact distinct
    · exact List.nodup_nil
    · exact sound.distinct i x before
  · intro i x j y found found' l inside inside'
    rcases blends.object?_cases found with ⟨rfl, rfl⟩ | ⟨b, before, ⟨-, rfl⟩ | ⟨outside, rfl⟩⟩ <;>
      rcases blends.object?_cases found' with ⟨rfl, rfl⟩ | ⟨c, before', ⟨-, rfl⟩ | ⟨outside', rfl⟩⟩
    · rfl
    · cases inside'
    · exact absurd inside (moved j y before' outside' l inside')
    · cases inside
    · cases inside
    · cases inside
    · exact absurd inside' (moved i x before outside l inside)
    · cases inside'
    · exact sound.exclusive i x j y before before' l inside inside'
  · intro i x found dead
    rcases blends.object?_cases found with ⟨-, rfl⟩ | ⟨b, before, ⟨-, rfl⟩ | ⟨-, rfl⟩⟩
    · rw [blends.live] at dead
      cases dead
    · rfl
    · exact sound.superseded i x before dead

structure Drop (m : Memory) (o : Object) (m' : Memory) : Prop where
  found : m.registry.object? o.id = some o
  live : o.isLive = true
  bounded : ∀ l ∈ o.owned.toList, l.region ≠ .temp
  registry : m'.registry = m.registry.without o
  returns : ∀ region, Space.Returns (m.space region) o.owned.toList (m'.space region)

theorem Drop.free {o : Object} (drop : Drop m o m') (formed : m.Formed) (l : Location) :
    m'.Free l ↔ m.Free l ∨ l ∈ o.owned.toList := by
  have free := (drop.returns l.region).free l.address
  rw [(formed l.region).home] at free
  have heap : l ∈ o.owned.toList → (m.space l.region).isHeap = true := fun inside =>
    (formed l.region).heap (drop.bounded l inside)
  unfold Free
  rw [free]
  exact ⟨.imp_right And.right, .imp_right fun inside => ⟨heap inside, inside⟩⟩

theorem Drop.taken {o : Object} (drop : Drop m o m') (formed : m.Formed) {l : Location}
    (taken : m.Taken l) (kept : l ∉ o.owned.toList) : m'.Taken l := by
  have after := (drop.returns l.region).taken l.address
  rw [(formed l.region).home] at after
  exact after.mpr ⟨taken, fun given => kept given.2⟩

theorem Drop.found_iff {o : Object} (drop : Drop m o m') {i : ObjectId} {x : Object} :
    m'.registry.object? i = some x ↔
      m.registry.representative i ≠ o.id ∧ m.registry.object? i = some x := by
  rw [drop.registry]
  exact Registry.object?_without_eq_some

theorem Sound.drop {o : Object} (sound : m.Sound) (drop : Drop m o m') : m'.Sound := by
  have other : ∀ i x, m'.registry.object? i = some x →
      i ≠ o.id ∧ m.registry.object? i = some x := by
    intro i x found
    obtain ⟨away, before⟩ := drop.found_iff.mp found
    refine ⟨?_, before⟩
    intro same
    rw [same] at away
    exact away (Registry.representative_of_live drop.found drop.live)
  refine ⟨?_, ?_, ?_, ?_, ?_, ?_⟩
  · intro region
    have returns := drop.returns region
    exact (sound.formed region).shape returns.sound returns.shape
  · rw [drop.registry]
    exact sound.coherent.without drop.found
  · intro i x found l inside
    obtain ⟨away, before⟩ := other i x found
    apply drop.taken sound.formed (sound.taken i x before l inside)
    intro given
    exact away (sound.exclusive i x o.id o before drop.found l inside given)
  · intro i x found
    exact sound.distinct i x (other i x found).2
  · intro i x j y found found'
    exact sound.exclusive i x j y (other i x found).2 (other j y found').2
  · intro i x found
    exact sound.superseded i x (other i x found).2

/-! ### Dropping one object after another -/

inductive Drops : Memory → List Object → Memory → Prop where
  | nil {first : Memory} : Drops first [] first
  | cons {first middle last : Memory} {o : Object} {rest : List Object} :
      Drop first o middle → Drops middle rest last → Drops first (o :: rest) last

theorem Drops.sound {objects : List Object} (drops : Drops m objects m') (sound : m.Sound) :
    m'.Sound := by
  induction drops with
  | nil => exact sound
  | cons drop _ ih => exact ih (sound.drop drop)

theorem Drops.free {objects : List Object} (drops : Drops m objects m') (sound : m.Sound)
    (l : Location) : m'.Free l ↔ m.Free l ∨ ∃ o ∈ objects, l ∈ o.owned.toList := by
  induction drops with
  | nil => simp
  | cons drop _ ih =>
    rw [ih (sound.drop drop), drop.free sound.formed, List.exists_mem_cons_iff, or_assoc]

/-- Exactly the objects that a dropped one represents are gone. -/
theorem Drops.found_iff {objects : List Object} (drops : Drops m objects m') (sound : m.Sound)
    {i : ObjectId} {x : Object} :
    m'.registry.object? i = some x ↔ m.registry.object? i = some x ∧
      ∀ o ∈ objects, m.registry.representative i ≠ o.id := by
  induction drops with
  | nil => simp
  | cons drop _ ih =>
    rw [ih (sound.drop drop), drop.found_iff, List.forall_mem_cons]
    constructor
    · intro ⟨⟨kept, found⟩, others⟩
      rw [drop.registry, sound.coherent.representative_without kept] at others
      exact ⟨found, kept, others⟩
    · intro ⟨found, kept, others⟩
      rw [drop.registry, sound.coherent.representative_without kept]
      exact ⟨⟨kept, found⟩, others⟩

end Memory

end VectorMemory

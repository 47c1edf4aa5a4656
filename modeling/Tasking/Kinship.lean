import Mathlib.Data.Set.Basic
import Tasking.Ownership

/-!
Objects that name their parent by its address, while addresses are used again.

Every object has an identity of its own, an address, and the address its parent had when
it was made.  Addresses that nobody has wait in the free lists of some pools.  What
`spawner` says of identities can be read off the addresses of the objects that are there
(`Kinship`) as long as an address is not used again while a child of the one that had it
before is still around; `insert` has that as its hypothesis `childless`.
-/
namespace Tasking.Kinship
open Ownership Function

variable {ι α P : Type*}

structure Kin (ι α : Type*) where
  id : ι
  addr : α
  parent : α
  deriving DecidableEq

/-- The objects that are there, the free lists, and who made which object; the root, which
is no object, has an address but no identity. -/
structure Recognises (root : α) (live : Set (Kin ι α)) (free : P → List α)
    (spawner : ι → Option ι) : Prop where
  unique : ∀ k ∈ live, ∀ l ∈ live, k.addr = l.addr → k = l
  apart : ∀ k ∈ live, k.addr ≠ root
  /-- An object at the address of the parent is the parent. -/
  spawned : ∀ k ∈ live, ∀ l ∈ live, l.addr = k.parent → spawner k.id = some l.id
  orphan : ∀ k ∈ live, k.parent = root → spawner k.id = none
  separate : Separate free
  unused : ∀ p, ∀ a ∈ free p, a ≠ root ∧ ∀ k ∈ live, k.addr ≠ a

namespace Recognises

variable {root : α} {live live' : Set (Kin ι α)} {free : P → List α} {spawner : ι → Option ι}

theorem empty (spawner : ι → Option ι) :
    Recognises root (∅ : Set (Kin ι α)) (fun _ : P => []) spawner where
  unique k mem := absurd mem (Set.notMem_empty k)
  apart k mem := absurd mem (Set.notMem_empty k)
  spawned k mem := absurd mem (Set.notMem_empty k)
  orphan k mem := absurd mem (Set.notMem_empty k)
  separate := ⟨fun _ => List.nodup_nil, fun _ _ _ _ here => absurd here List.not_mem_nil⟩
  unused _ _ mem := absurd mem List.not_mem_nil

theorem subset (kin : Recognises root live free spawner) (fewer : live' ⊆ live) :
    Recognises root live' free spawner where
  unique k hk l hl := kin.unique k (fewer hk) l (fewer hl)
  apart k hk := kin.apart k (fewer hk)
  spawned k hk l hl := kin.spawned k (fewer hk) l (fewer hl)
  orphan k hk := kin.orphan k (fewer hk)
  separate := kin.separate
  unused p a mem := ⟨(kin.unused p a mem).1, fun k hk => (kin.unused p a mem).2 k (fewer hk)⟩

/-- A new object, at an address that no object has, that is free nowhere, and that no
object has for its parent. -/
theorem insert (kin : Recognises root live free spawner) {k : Kin ι α}
    {spawner' : ι → Option ι} (same : ∀ l ∈ live, spawner' l.id = spawner l.id)
    (fresh : ∀ l ∈ live, l.addr ≠ k.addr) (notRoot : k.addr ≠ root)
    (taken : ∀ p, k.addr ∉ free p) (childless : ∀ l ∈ live, l.parent ≠ k.addr)
    (other : k.parent ≠ k.addr)
    (spawned : ∀ l ∈ live, l.addr = k.parent → spawner' k.id = some l.id)
    (orphan : k.parent = root → spawner' k.id = none) :
    Recognises root (Insert.insert k live) free spawner' where
  unique := by
    rintro l (rfl | hl) m (rfl | hm) eq
    · rfl
    · exact absurd eq.symm (fresh m hm)
    · exact absurd eq (fresh l hl)
    · exact kin.unique l hl m hm eq
  apart := by
    rintro l (rfl | hl)
    · exact notRoot
    · exact kin.apart l hl
  spawned := by
    rintro l (rfl | hl) m (rfl | hm) eq
    · exact absurd eq.symm other
    · exact spawned m hm eq
    · exact absurd eq.symm (childless l hl)
    · rw [same l hl]
      exact kin.spawned l hl m hm eq
  orphan := by
    rintro l (rfl | hl) eq
    · exact orphan eq
    · rw [same l hl]
      exact kin.orphan l hl eq
  separate := kin.separate
  unused := by
    refine fun p a mem => ⟨(kin.unused p a mem).1, ?_⟩
    rintro l (rfl | hl)
    · rintro rfl
      exact taken p mem
    · exact (kin.unused p a mem).2 l hl

variable [DecidableEq P]

/-- An address is taken from a free list, and is free nowhere then. -/
theorem take (kin : Recognises root live free spawner) {p : P} {a : α} {rest : List α}
    (first : free p = a :: rest) :
    Recognises root live (update free p rest) spawner ∧
      (∀ q, a ∉ update free p rest q) ∧ a ≠ root ∧ ∀ k ∈ live, k.addr ≠ a := by
  have less (q : P) : (update free p rest q).Sublist (free q) := by
    by_cases same : q = p
    · subst same
      rw [update_self, first]
      exact List.sublist_cons_self a rest
    · rw [update_of_ne same]
  have here : a ∈ free p := first ▸ List.mem_cons_self
  refine ⟨⟨kin.unique, kin.apart, kin.spawned, kin.orphan, kin.separate.sublist less,
    fun q b mem => kin.unused q b ((less q).subset mem)⟩, fun q mem => ?_, kin.unused p a here⟩
  by_cases same : q = p
  · subst same
    rw [update_self] at mem
    have nodup := kin.separate.nodup q
    rw [first] at nodup
    exact (List.nodup_cons.mp nodup).1 mem
  · rw [update_of_ne same] at mem
    exact kin.separate.disjoint q p same mem here

/-- An object goes, and its address is free. -/
theorem release (kin : Recognises root live free spawner) {p : P} {k : Kin ι α} (mem : k ∈ live)
    (fewer : live' ⊆ live) (gone : k ∉ live') :
    Recognises root live' (update free p (k.addr :: free p)) spawner := by
  have fresh (q : P) : k.addr ∉ free q := fun here => (kin.unused q k.addr here).2 k mem rfl
  have rest := kin.subset fewer
  refine ⟨rest.unique, rest.apart, rest.spawned, rest.orphan, kin.separate.add fresh (.refl _),
    fun q a here => ?_⟩
  have either : a = k.addr ∨ a ∈ free q := by
    by_cases same : q = p
    · subst same
      rw [update_self] at here
      exact List.mem_cons.mp here
    · rw [update_of_ne same] at here
      exact .inr here
  rcases either with rfl | here
  · exact ⟨kin.apart k mem, fun l hl eq => gone (kin.unique l (fewer hl) k mem eq ▸ hl)⟩
  · exact rest.unused q a here

end Recognises

end Tasking.Kinship

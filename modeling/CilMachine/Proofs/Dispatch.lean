/-
CilMachine/Proofs/Dispatch.lean

The answers that a dispatcher keeps.  They are *faithful* to a catalog if each is what the catalog
would answer; a faithful dispatcher cannot be told from one that keeps nothing
(`Faithful.resolve_alike`), and asking it keeps it faithful.  A dispatcher that has only ever been
asked about one catalog is faithful to it (`FilledOn.faithful`).
-/
import CilMachine.Proofs.Ordinary

namespace CilMachine

namespace Dispatch

variable {c : Catalog} {d d' : Dispatch} {declared m : Method} {runtime : TypeRef}

/-- The answers kept are those of the catalog. -/
def Faithful (c : Catalog) (d : Dispatch) : Prop :=
  ∀ runtime name m, d.known.lookup (runtime, name) = some m →
    c.findOverride runtime name = .ok (some m)

theorem faithful_empty (c : Catalog) : Faithful c {} := by
  intro runtime name m h
  cases h

/-- What a faithful dispatcher answers is the catalog's target, and the dispatcher stays faithful.
-/
theorem Faithful.resolve_alike (h : Faithful c d) (declared : Method) (runtime : TypeRef) :
    AlikeOrdinary (fun p m => p.1 = m ∧ Faithful c p.2) (d.resolve c declared runtime)
      (target c declared runtime) := by
  unfold resolve
  rcases hknown : d.known.lookup (runtime, declared.name) with - | m
  · have htarget := (target_onlyPlain c declared runtime).ordinary
    rcases ht : target c declared runtime with e | m
    · exact .error (htarget e ht)
    · refine .ok ⟨rfl, fun runtime' name m' hm' => ?_⟩
      -- the only answer that is new is the one just given
      rw [List.lookup_cons] at hm'
      split at hm'
      · rename_i hkey
        obtain rfl := Option.some.inj hm'
        obtain ⟨rfl, rfl⟩ := Prod.mk.inj (eq_of_beq hkey)
        exact target_eq_ok ht
      · exact h runtime' name m' hm'
  · have ht : target c declared runtime = .ok m := by
      rw [target, h _ _ _ hknown]
      rfl
    rw [ht]
    exact .ok ⟨rfl, h⟩

theorem Faithful.resolve (h : Faithful c d) (hd : d.resolve c declared runtime = .ok (m, d')) :
    Faithful c d' := by
  have halike := h.resolve_alike declared runtime
  rw [hd] at halike
  generalize target c declared runtime = x at halike
  cases halike with
  | ok hm => exact hm.2

/-- Any two faithful dispatchers answer alike. -/
theorem Faithful.resolves_alike {e : Dispatch} (hd : Faithful c d) (he : Faithful c e)
    (declared : Method) (runtime : TypeRef) :
    AlikeOrdinary (fun p q => q.1 = p.1 ∧ Faithful c p.2 ∧ Faithful c q.2)
      (d.resolve c declared runtime) (e.resolve c declared runtime) := by
  have h₁ := hd.resolve_alike declared runtime
  have h₂ := he.resolve_alike declared runtime
  generalize d.resolve c declared runtime = x, e.resolve c declared runtime = y,
    target c declared runtime = z at h₁ h₂
  cases h₁ with
  | error hz =>
      cases h₂
      exact .error hz
  | ok hx =>
      cases h₂ with
      | ok hy => exact .ok ⟨hy.1.trans hx.1.symm, hx.2, hy.2⟩

/-- The methods that are kept as answers are in `P`. -/
def Keeps (P : Method → Prop) (d : Dispatch) : Prop := ∀ entry ∈ d.known, P entry.2

/-- If all methods of the catalog are in `P`, then so are the answers. -/
theorem Keeps.resolve_alike {P : Method → Prop} (h : d.Keeps P) (hc : ∀ m, c.Declares m → P m)
    (declared : Method) (runtime : TypeRef) :
    AlikeOrdinary (fun p q => q = p ∧ P p.1 ∧ p.2.Keeps P) (d.resolve c declared runtime)
      (d.resolve c declared runtime) := by
  refine (Alike.of_only (d.resolve_onlyPlain c declared runtime).ordinary).imp ?_
  rintro ⟨m, d'⟩ _ ⟨rfl, hresolve⟩
  unfold resolve at hresolve
  rcases hknown : d.known.lookup (runtime, declared.name) with - | m' <;> rw [hknown] at hresolve
  · obtain ⟨m', ht, hm⟩ := bind_eq_ok (f := fun m => .ok (m, _)) hresolve
    cases hm
    have hm : P m := hc m (Catalog.declares_of_findOverride (target_eq_ok ht))
    refine ⟨rfl, hm, fun entry hentry => ?_⟩
    rcases List.mem_cons.1 hentry with rfl | hentry
    · exact hm
    · exact h entry hentry
  · cases hresolve
    obtain ⟨l₁, l₂, hl, -⟩ := List.lookup_eq_some_iff.1 hknown
    have hmem : ((runtime, declared.name), m) ∈ d.known := by
      rw [hl]
      exact List.mem_append_right l₁ List.mem_cons_self
    exact ⟨rfl, h _ hmem, h⟩

/-- The answers kept have all been given on one catalog, since the dispatcher was empty. -/
inductive FilledOn (c : Catalog) : Dispatch → Prop
  | empty : FilledOn c {}
  | resolve {d d' : Dispatch} {declared m : Method} {runtime : TypeRef} : FilledOn c d →
      d.resolve c declared runtime = .ok (m, d') → FilledOn c d'

theorem FilledOn.faithful (h : FilledOn c d) : Faithful c d := by
  induction h with
  | empty => exact faithful_empty c
  | resolve _ hd ih => exact ih.resolve hd

end Dispatch

end CilMachine

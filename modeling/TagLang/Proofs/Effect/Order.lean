import TagLang.Effect
import Mathlib.Data.List.Basic
import Mathlib.Order.Basic
import Mathlib.Data.String.Basic
import Mathlib.Data.List.Perm.Basic

/-! # Sets of effects by what they cover

A set of effects is read through the effects that it covers. The unknown set covers every effect,
and it alone covers `none`, which stands for an effect that nothing is known of. A set in order is
determined by what it covers, so unions can be stated without naming the operations that compute
them.
-/

namespace TagLang
open List

namespace Effect

variable {es : List Effect}

theorem before_iff {a b : Effect} :
    a.before b = true ↔ a.kind.rank < b.kind.rank ∨ a.kind = b.kind ∧ a.value < b.value := by
  simp [before]

theorem rank_injective {a b : EffectKind} (h : a.rank = b.rank) : a = b := by
  cases a <;> cases b <;> simp [EffectKind.rank] at h ⊢

theorem before_irrefl (e : Effect) : ¬ e.before e = true := by
  simp [before_iff]

theorem before_trans {a b c : Effect} (hab : a.before b = true) (hbc : b.before c = true) :
    a.before c = true := by
  rw [before_iff] at *
  rcases hab with hab | ⟨kab, vab⟩ <;> rcases hbc with hbc | ⟨kbc, vbc⟩
  · exact Or.inl (hab.trans hbc)
  · exact Or.inl (kbc ▸ hab)
  · exact Or.inl (kab ▸ hbc)
  · exact Or.inr ⟨kab.trans kbc, vab.trans vbc⟩

theorem before_total {a b : Effect} (hne : a ≠ b) (h : ¬ a.before b = true) : b.before a = true := by
  rw [before_iff] at *
  push Not at h
  rcases lt_or_eq_of_le h.1 with hlt | heq
  · exact Or.inl hlt
  · have hk := rank_injective heq
    refine Or.inr ⟨hk, lt_of_le_of_ne (h.2 hk.symm) fun hv => hne ?_⟩
    cases a
    cases b
    simp_all

def Ordered (es : List Effect) : Prop := es.Pairwise fun a b => a.before b = true

theorem mem_insertIn {e x : Effect} : x ∈ e.insertIn es ↔ x = e ∨ x ∈ es := by
  induction es with
  | nil => simp [insertIn]
  | cons y ys ih =>
    simp only [insertIn]
    split
    · next h => simp [h]
    · split
      · simp
      · simp only [mem_cons, ih]
        tauto

theorem Ordered.insertIn (h : Ordered es) (e : Effect) : Ordered (e.insertIn es) := by
  induction es with
  | nil => simp [Effect.insertIn, Ordered]
  | cons y ys ih =>
    obtain ⟨hy, hys⟩ := pairwise_cons.mp h
    simp only [Effect.insertIn]
    split
    · exact h
    · next hne =>
      split
      · next hb =>
        refine pairwise_cons.mpr ⟨fun z hz => ?_, h⟩
        rcases mem_cons.mp hz with rfl | hz
        · exact hb
        · exact before_trans hb (hy z hz)
      · next hb =>
        refine pairwise_cons.mpr ⟨fun z hz => ?_, ih hys⟩
        rcases mem_insertIn.mp hz with rfl | hz
        · exact before_total hne hb
        · exact hy z hz

theorem mem_foldl_insertIn {x : Effect} {es acc : List Effect} :
    x ∈ es.foldl (fun acc e => e.insertIn acc) acc ↔ x ∈ acc ∨ x ∈ es := by
  induction es generalizing acc with
  | nil => simp
  | cons e es ih =>
    rw [foldl_cons, ih, mem_insertIn, mem_cons]
    tauto

theorem Ordered.foldl_insertIn {es acc : List Effect} (h : Ordered acc) :
    Ordered (es.foldl (fun acc e => e.insertIn acc) acc) := by
  induction es generalizing acc with
  | nil => exact h
  | cons e es ih => exact ih (h.insertIn e)

theorem ordered_inOrder (es : List Effect) : Ordered (inOrder es) :=
  Ordered.foldl_insertIn List.Pairwise.nil

@[simp] theorem mem_inOrder {x : Effect} : x ∈ inOrder es ↔ x ∈ es := by
  simp [inOrder, mem_foldl_insertIn]

theorem Ordered.eq_of_mem_iff {as bs : List Effect} (ha : Ordered as) (hb : Ordered bs)
    (h : ∀ e, e ∈ as ↔ e ∈ bs) : as = bs := by
  have hne {x y : Effect} (hxy : x.before y = true) : x ≠ y := fun heq => before_irrefl y (heq ▸ hxy)
  have hperm : as.Perm bs := (perm_ext_iff_of_nodup (ha.imp hne) (hb.imp hne)).mpr h
  refine hperm.eq_of_pairwise (fun x y _ _ hxy hyx => ?_) ha hb
  exact absurd (before_trans hxy hyx) (before_irrefl x)

end Effect

namespace EffectSet

variable {es : List Effect} {s t : EffectSet}

/-- Whether a set allows for an effect, where `none` is an effect that nothing is known of. -/
def Covers : EffectSet → Option Effect → Prop
  | .unknown, _ => True
  | .known es, some e => e ∈ es
  | .known _, none => False

@[simp] theorem covers_unknown (x : Option Effect) : unknown.Covers x := trivial

@[simp] theorem covers_known_some {e : Effect} : (known es).Covers (some e) ↔ e ∈ es :=
  Iff.rfl

@[simp] theorem not_covers_known_none : ¬ (known es).Covers none := id

@[simp] theorem not_covers_empty (x : Option Effect) : ¬ empty.Covers x := by
  cases x <;> simp [empty]

theorem covers_none_iff : s.Covers none ↔ s = unknown := by
  cases s <;> simp

def Canonical : EffectSet → Prop
  | .known es => Effect.Ordered es
  | .unknown => True

theorem canonical_ofEffects (es : List Effect) : (ofEffects es).Canonical := Effect.ordered_inOrder es

theorem covers_ofEffects {x : Option Effect} : (ofEffects es).Covers x ↔ ∃ e ∈ es, x = some e := by
  cases x <;> simp [ofEffects]

theorem Canonical.eq_of_covers_iff (hs : s.Canonical) (ht : t.Canonical)
    (h : ∀ x, s.Covers x ↔ t.Covers x) : s = t := by
  cases s with
  | unknown => exact (covers_none_iff.mp ((h none).mp trivial)).symm
  | known as =>
    cases t with
    | unknown => exact absurd ((h none).mpr trivial) not_covers_known_none
    | known bs => exact congrArg known (hs.eq_of_mem_iff ht fun e => h (some e))

theorem subset_iff : s.subset t = true ↔ ∀ x, s.Covers x → t.Covers x := by
  cases s with
  | unknown =>
    cases t with
    | unknown => simp [subset]
    | known bs => simpa [subset] using ⟨none, not_covers_known_none⟩
  | known as =>
    cases t with
    | unknown => simp [subset]
    | known bs =>
      constructor
      · rintro h (_ | e) hx
        · exact hx.elim
        · simpa using all_eq_true.mp h e hx
      · intro h
        refine all_eq_true.mpr fun e he => ?_
        simpa using h (some e) he

/-- The union of all sets that satisfy a predicate, in order. The unknown set absorbs all others. -/
structure IsUnion (parts : EffectSet → Prop) (s : EffectSet) : Prop where
  canonical : s.Canonical
  covers_iff : ∀ x, s.Covers x ↔ ∃ part, parts part ∧ part.Covers x

theorem IsUnion.unique {parts : EffectSet → Prop} (hs : s.IsUnion parts) (ht : t.IsUnion parts) : s = t :=
  hs.canonical.eq_of_covers_iff ht.canonical fun x => (hs.covers_iff x).trans (ht.covers_iff x).symm

end EffectSet

end TagLang

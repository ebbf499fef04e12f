import TagLang.Proofs.Coverage.Constant
import TagLang.Proofs.Coverage.Written

/-! # Arms that are never taken

Arms are tried in their order, and an arm with a guard is passed over if its guard does not hold. An
arm that is reported as unreachable or as a duplicate stands behind an arm without a guard that
takes all its values, so it is never the one that is selected, and a match without the reported arms
selects the same arms.
-/

namespace TagLang
open List

def PatternError.isDead (e : PatternError) : Bool :=
  match e.fault with
  | .nonExhaustive _ _ => false
  | .unreachable _ => true
  | .duplicate _ _ => true

namespace Coverage

/-! ## What a report says -/

section Reports

variable {catchAll : Option Span} {seen : List (String × Span)} {before : List Bound.Pattern}
  {p q : Bound.Pattern} {e : PatternError}

def Shadows (q p : Bound.Pattern) : Prop :=
  q.isCatchAll = true ∨ ∃ key, q.constant? = some key ∧ p.constant? = some key

structure Remembers (before : List Bound.Pattern) (catchAll : Option Span)
    (seen : List (String × Span)) : Prop where
  catchAll : ∀ span, catchAll = some span → ∃ q ∈ before, q.isCatchAll = true
  seen : ∀ key span, seen.lookup key = some span → ∃ q ∈ before, q.constant? = some key

theorem Remembers.append (h : Remembers before catchAll seen) (p : Bound.Pattern) :
    Remembers (before ++ [p]) catchAll seen where
  catchAll span hspan := by
    obtain ⟨q, hq, hcatch⟩ := h.catchAll span hspan
    exact ⟨q, mem_append_left _ hq, hcatch⟩
  seen key span hspan := by
    obtain ⟨q, hq, hkey⟩ := h.seen key span hspan
    exact ⟨q, mem_append_left _ hq, hkey⟩

theorem exists_shadows_of_mem_deadArms (h : Remembers before catchAll seen)
    {ps : List Bound.Pattern} (he : e ∈ deadArms catchAll seen ps) :
    ∃ pre p post, ps = pre ++ p :: post ∧ e.span = p.span ∧ ∃ q ∈ before ++ pre, Shadows q p := by
  induction ps generalizing before catchAll seen with
  | nil => cases he
  | cons p ps ih =>
    -- What the rest of the patterns reports is behind `p` as well.
    have hrest {catchAll' : Option Span} {seen' : List (String × Span)}
        (h' : Remembers (before ++ [p]) catchAll' seen') (he' : e ∈ deadArms catchAll' seen' ps) :
        ∃ pre p' post, p :: ps = pre ++ p' :: post ∧ e.span = p'.span ∧ ∃ q ∈ before ++ pre,
          Shadows q p' := by
      obtain ⟨pre, p', post, rfl, hspan, q, hq, hshadows⟩ := ih h' he'
      exact ⟨p :: pre, p', post, rfl, hspan, q, by simpa using hq, hshadows⟩
    have hhere {q : Bound.Pattern} (hq : q ∈ before) (hshadows : Shadows q p) (hspan : e.span = p.span) :
        ∃ pre p' post, p :: ps = pre ++ p' :: post ∧ e.span = p'.span ∧ ∃ q ∈ before ++ pre,
          Shadows q p' :=
      ⟨[], p, ps, rfl, hspan, q, by simpa using hq, hshadows⟩
    rw [deadArms.eq_def] at he
    dsimp only at he
    split at he
    · next coveredBy =>
      obtain ⟨q, hq, hcatch⟩ := h.catchAll coveredBy rfl
      rcases mem_cons.mp he with rfl | he
      · exact hhere hq (.inl hcatch) rfl
      · exact hrest (h.append p) he
    · split at he
      · next hcatch => exact hrest ⟨fun _ _ => ⟨p, by simp, hcatch⟩, (h.append p).seen⟩ he
      · split at he
        · exact hrest (h.append p) he
        · next key hkey =>
          split at he
          · next first hfirst =>
            obtain ⟨q, hq, hqkey⟩ := h.seen key first hfirst
            rcases mem_cons.mp he with rfl | he
            · exact hhere hq (.inr ⟨key, hqkey, hkey⟩) rfl
            · exact hrest (h.append p) he
          · refine hrest ⟨(h.append p).catchAll, fun key' span hspan => ?_⟩ he
            rw [lookup_cons] at hspan
            split at hspan
            · next hsame => exact ⟨p, by simp, by rw [hkey, eq_of_beq hsame]⟩
            · exact (h.append p).seen key' span hspan

theorem mem_deadArms_of_isDead {r : Registry} {w : Bound.Match} (he : e ∈ ofMatch r w)
    (hdead : e.isDead = true) : e ∈ deadArms none [] (unguarded w) := by
  rcases mem_append.mp he with he | he
  · exact he
  · generalize (if (unguarded w).any Bound.Pattern.isCatchAll then [] else _) = lacking at he
    split at he
    · cases he
    · rw [mem_singleton.mp he] at hdead
      cases hdead

theorem exists_shadowed_arm {w : Bound.Match} (he : e ∈ deadArms none [] (unguarded w)) :
    ∃ pre a post, w.arms = pre ++ a :: post ∧ e.span = a.pattern.span ∧
      ∃ b ∈ pre, b.guard = none ∧ Shadows b.pattern a.pattern := by
  have hstart : Remembers [] none [] := ⟨nofun, nofun⟩
  obtain ⟨pre, p, post, hps, hspan, q, hq, hshadows⟩ := exists_shadows_of_mem_deadArms hstart he
  obtain ⟨before, rest, hfilter, rfl, hrest⟩ := map_eq_append_iff.mp hps
  obtain ⟨a, after, rfl, rfl, -⟩ := map_eq_cons_iff.mp hrest
  obtain ⟨armsBefore, armsRest, harms, rfl, hfrom⟩ := filter_eq_append_iff.mp hfilter
  obtain ⟨skipped, later, rfl, hskipped, -, -⟩ := filter_eq_cons_iff.mp hfrom
  obtain ⟨b, hb, rfl⟩ := mem_map.mp (nil_append _ ▸ hq)
  obtain ⟨hb, hguard⟩ := mem_filter.mp hb
  have hsplit : w.arms = (armsBefore ++ skipped) ++ a :: later := by rw [harms, append_assoc]
  exact ⟨_, a, later, hsplit, hspan, b, mem_append_left _ hb, Option.isNone_iff_eq_none.mp hguard,
    hshadows⟩

end Reports

/-! ## Which arm is taken -/

section Selection

variable {source : String} {tree : Module} {out : BindOutput} {f : Bound.Function} {r : Registry}
  {w : Bound.Match} {e : PatternError}

/-- The arm that a value takes, of arms with their numbers: the first one whose pattern takes the
value and that has no guard or a guard that holds. -/
def selected (holds : Nat → Bool) (v : Value) (arms : List (Bound.Arm × Nat)) :
    Option (Bound.Arm × Nat) :=
  arms.find? fun a => a.1.pattern.reading.takes v && (a.1.guard.isNone || holds a.2)

def isFlagged (r : Registry) (w : Bound.Match) (a : Bound.Arm) : Bool :=
  (ofMatch r w).any fun e => e.isDead && e.span == a.pattern.span

theorem find?_filter_of_preceded {α : Type} {l : List α} {kind dead : α → Bool}
    (h : ∀ pre a post, l = pre ++ a :: post → dead a = true → kind a = true → ∃ b ∈ pre, kind b = true) :
    (∀ a, l.find? kind = some a → dead a = false) ∧
      (l.filter fun a => !dead a).find? kind = l.find? kind := by
  have halive (a : α) (ha : l.find? kind = some a) : dead a = false := by
    obtain ⟨hkind, pre, post, hl, hpre⟩ := find?_eq_some_iff_append.mp ha
    refine Bool.eq_false_iff.mpr fun hdead => ?_
    obtain ⟨b, hb, hbkind⟩ := h pre a post hl hdead hkind
    simpa [hbkind] using hpre b hb
  refine ⟨halive, ?_⟩
  cases hfind : l.find? kind with
  | none =>
    refine find?_eq_none.mpr fun a ha => ?_
    exact find?_eq_none.mp hfind a (mem_of_mem_filter ha)
  | some a =>
    obtain ⟨hkind, pre, post, rfl, hpre⟩ := find?_eq_some_iff_append.mp hfind
    refine find?_eq_some_iff_append.mpr
      ⟨hkind, pre.filter fun a => !dead a, post.filter fun a => !dead a, ?_⟩
    constructor
    · rw [filter_append, filter_cons_of_pos (by simp [halive a hfind])]
    · exact fun b hb => hpre b (mem_of_mem_filter hb)

theorem eq_of_span_eq (hstarts : (w.arms.map (·.pattern)).Pairwise fun p q => p.span.start < q.span.start)
    {pre pre' post post' : List Bound.Arm} {a a' : Bound.Arm} (h : w.arms = pre ++ a :: post)
    (h' : w.arms = pre' ++ a' :: post') (hspan : a.pattern.span = a'.pattern.span) :
    pre = pre' ∧ a = a' := by
  have hdistinct : (w.arms.map (·.pattern.span.start)).Nodup := by
    rw [pairwise_map] at hstarts
    exact pairwise_map.mpr (hstarts.imp Nat.ne_of_lt)
  have hkeys : pre.map (·.pattern.span.start) = pre'.map (·.pattern.span.start) := by
    have hsplit := congrArg (List.map (·.pattern.span.start)) (h.symm.trans h')
    rw [h, map_append, map_cons, nodup_middle, nodup_cons, mem_append, not_or] at hdistinct
    rw [map_append, map_append, map_cons, map_cons, ← hspan,
      append_cons_inj_of_notMem hdistinct.1.1 hdistinct.1.2] at hsplit
    exact hsplit.1
  have hlength : pre.length = pre'.length := by simpa using congrArg List.length hkeys
  obtain ⟨hpre, hrest⟩ := append_inj (h.symm.trans h') hlength
  exact ⟨hpre, (cons.inj hrest).1⟩

theorem Shadows.takes {p q : Bound.Pattern} (h : Shadows q p)
    (hp : ∀ c, p.asConstant? = some c → c.Named) (hq : ∀ c, q.asConstant? = some c → c.Named)
    {v : Value} (hv : p.reading.takes v = true) : q.reading.takes v = true := by
  rcases h with hcatch | ⟨key, hqkey, hpkey⟩
  · exact Bound.Pattern.takes_of_isCatchAll (q.isCatchAll_reading.trans hcatch)
  · rw [Bound.Pattern.constant?_eq] at hqkey hpkey
    obtain ⟨c, hc, hckey⟩ := Option.map_eq_some_iff.mp hqkey
    obtain ⟨d, hd, hdkey⟩ := Option.map_eq_some_iff.mp hpkey
    have hsame : c = d := Constant.render_injective (hq c hc) (hp d hd) (hckey.trans hdkey.symm)
    rw [Bound.Pattern.takes_reading hc, hsame, ← Bound.Pattern.takes_reading hd]
    exact hv

theorem named_of_mem_arms (hw : ReadMatch source tree out f w) {a : Bound.Arm} (ha : a ∈ w.arms)
    {c : Constant} (hc : a.pattern.asConstant? = some c) : c.Named := by
  refine Bound.Pattern.named_of_asConstant? hc fun owner name span hvariant => ?_
  have hmem : .variant owner name [] span ∈ w.arms.map (·.pattern) := mem_map.mpr ⟨a, ha, hvariant⟩
  exact isName_of_variant hw hmem

theorem exists_covering_arm (hw : ReadMatch source tree out f w) {pre post : List Bound.Arm}
    {a : Bound.Arm} (harms : w.arms = pre ++ a :: post) (hflagged : isFlagged r w a = true) :
    ∃ b ∈ pre, b.guard = none ∧ ∀ v, a.pattern.reading.takes v = true →
      b.pattern.reading.takes v = true := by
  obtain ⟨e, he, hdead⟩ := any_eq_true.mp hflagged
  rw [Bool.and_eq_true, beq_iff_eq] at hdead
  obtain ⟨pre', a', post', harms', hspan, b, hb, hguard, hshadows⟩ :=
    exists_shadowed_arm (mem_deadArms_of_isDead he hdead.1)
  have hstarts := pairwise_start_patterns hw
  obtain ⟨rfl, rfl⟩ := eq_of_span_eq hstarts harms harms' (hdead.2.symm.trans hspan)
  have hnamed {a' : Bound.Arm} (ha' : a' ∈ w.arms) (c : Constant)
      (hc : a'.pattern.asConstant? = some c) : c.Named :=
    named_of_mem_arms hw ha' hc
  refine ⟨b, hb, hguard, fun v hv => hshadows.takes (hnamed ?_) (hnamed ?_) hv⟩
  · simp [harms]
  · simp [harms, hb]

theorem existsUnique_arm (hw : ReadMatch source tree out f w) (he : e ∈ ofMatch r w)
    (hdead : e.isDead = true) : ∃! a, a ∈ w.arms ∧ a.pattern.span = e.span := by
  obtain ⟨pre, a, post, harms, hspan, -⟩ := exists_shadowed_arm (mem_deadArms_of_isDead he hdead)
  refine ⟨a, ⟨by simp [harms], hspan.symm⟩, ?_⟩
  rintro a' ⟨ha', hspan'⟩
  obtain ⟨pre', post', harms'⟩ := append_of_mem ha'
  exact (eq_of_span_eq (pairwise_start_patterns hw) harms' harms (hspan'.trans hspan)).2

/-- No value takes an arm that is reported as unreachable or as a duplicate, whatever the guards
say, and without these arms a match takes the same ones. Each such report is at one arm of its
match, and all reports on a match of a body are given out. -/
theorem flagged_arms_dead (hparse : (parse source).module = some tree) (hbind : bind tree = .ok out)
    (hf : f ∈ out.module.functions) (hw : f.HasMatch w) :
    (∀ holds v,
      (∀ a, selected holds v w.arms.zipIdx = some a → isFlagged out.module.registry w a.1 = false) ∧
      selected holds v (w.arms.zipIdx.filter fun a => !isFlagged out.module.registry w a.1) =
        selected holds v w.arms.zipIdx) ∧
    (∀ e ∈ ofMatch out.module.registry w, e.isDead = true → ∃! a, a ∈ w.arms ∧ a.pattern.span = e.span) ∧
    (Bound.MatchOccurs f.body w → ∀ e ∈ ofMatch out.module.registry w, e ∈ checkMatches out.module) := by
  refine ⟨fun holds v => ?_, fun e he hdead => existsUnique_arm ⟨hparse, hbind, hf, hw⟩ he hdead,
    fun hoccurs e he => mem_checkMatches_iff.mpr ⟨f, hf, w, hoccurs, he⟩⟩
  apply find?_filter_of_preceded
  rintro pre ⟨a, i⟩ post hzip hflagged htaken
  have harms : w.arms = pre.map Prod.fst ++ a :: post.map Prod.fst := by
    simpa using congrArg (List.map Prod.fst) hzip
  obtain ⟨b, hb, hguard, hcovers⟩ := exists_covering_arm ⟨hparse, hbind, hf, hw⟩ harms hflagged
  obtain ⟨⟨_, j⟩, hmem, rfl⟩ := mem_map.mp hb
  have hvalue := hcovers v (Bool.and_eq_true_iff.mp htaken).1
  exact ⟨_, hmem, by simp [hvalue, hguard]⟩

/-- Tests for `None` under a guard, then without one, and again as `None()`; the last arm is behind
a catch-all. -/
def repeatedSource : String :=
  "§M\x7bm1:T\x7d\n§F\x7bf1:pick\x7d\n§I\x7b?i32:x\x7d\n§O\x7bi32\x7d\n" ++
  "§R §W\x7bw1\x7d x §K None §WHEN false → 0 §K None → 1 §K None() → 2 §K Some(_) → 3 §K _ → 4 " ++
  "§K Some(y) → 5 §/W\x7bw1\x7d\n§/F\x7bf1\x7d\n§/M\x7bm1\x7d\n"

set_option maxRecDepth 100000 in
theorem flags_repeatedSource :
    (cleanFront? repeatedSource).bind (fun (_, out) => out.module.functions.head?.bind fun f =>
      (Matches.stmts f.body).head?.map fun w => w.arms.map (isFlagged out.module.registry w)) =
    some [false, false, true, false, false, true] := by
  decide +kernel

theorem flagged_arms_dead_repeated : ∃ tree out f w, (parse repeatedSource).module = some tree ∧
    bind tree = .ok out ∧ f ∈ out.module.functions ∧ f.HasMatch w ∧
    w.arms.map (isFlagged out.module.registry w) = [false, false, true, false, false, true] ∧
    ∀ holds v, selected holds v (w.arms.zipIdx.filter fun a => !isFlagged out.module.registry w a.1) =
      selected holds v w.arms.zipIdx := by
  obtain ⟨⟨tree, out⟩, hfront, hout⟩ := Option.bind_eq_some_iff.mp flags_repeatedSource
  obtain ⟨f, hf, hout⟩ := Option.bind_eq_some_iff.mp hout
  obtain ⟨w, hw, hflags⟩ := Option.map_eq_some_iff.mp hout
  have hclean := cleanFront?_eq_some hfront
  have hf : f ∈ out.module.functions := mem_of_mem_head? hf
  have hhas : f.HasMatch w := (Bound.mem_matches_iff.mp (mem_of_mem_head? hw)).hasMatch
  have hdead := flagged_arms_dead hclean.read hclean.bound hf hhas
  exact ⟨tree, out, f, w, hclean.read, hclean.bound, hf, hhas, hflags, fun holds v => (hdead.1 holds v).2⟩

end Selection

end Coverage

end TagLang

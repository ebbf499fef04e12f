import TagLang.Proofs.Grammar.Yield
import TagLang.Proofs.Token.Place

/-! # Where patterns are read

A pattern starts where the token starts at which it is read, and its name is that of a token. If it
also ends with this token, then it is the pattern that the token's name alone stands for.
-/

namespace TagLang
open List

def NameIn (ts : List Token) (name : String) : Prop := ∃ t ∈ ts, t.kind = .ident name

def Pattern.name? : Pattern → Option String
  | .binding name _ => some name
  | .variant _ name _ _ => some name
  | _ => none

/-- A pattern is read at a token that others follow. -/
structure Pattern.ReadAt (t : Token) (us : List Token) (p : Pattern) : Prop where
  kind : t.kind ≠ .eof
  start : p.span.start = t.span.start
  stop : t.span.stop ≤ p.span.stop
  named : ∀ name ∈ p.name?, NameIn (t :: us) name
  bare : p.span.stop = t.span.stop → ∀ name, t.kind = .ident name → name ≠ "_" →
    Grammar.namedPattern none name none t.span = .ok p

inductive PatternsRead : List Token → List Pattern → Prop
  | nil (ts : List Token) : PatternsRead ts []
  | cons {ts us : List Token} {t : Token} {p : Pattern} {ps : List Pattern} (hts : t :: us <:+ ts)
    (hp : p.ReadAt t us) (hps : PatternsRead us ps) : PatternsRead ts (p :: ps)

theorem PatternsRead.mono {us ts : List Token} {ps : List Pattern} (h : PatternsRead us ps)
    (hts : us <:+ ts) : PatternsRead ts ps := by
  cases h with
  | nil => exact .nil ts
  | cons hus hp hps => exact .cons (hus.trans hts) hp hps

theorem Span.merge_self (s : Span) : s.merge s = s := by simp [merge]

theorem Span.start_merge_of_le {s t : Span} (h : s.start ≤ t.start) : (s.merge t).start = s.start :=
  Nat.min_eq_left h

theorem Span.le_stop_merge (s t : Span) : s.stop ≤ (s.merge t).stop := Nat.le_max_left _ _

theorem Span.foldl_merge {α : Type} (f : α → Span) {s : Span} {n : Nat} (hn : s.start ≤ n)
    (as : List α) (has : ∀ a ∈ as, n ≤ (f a).start ∧ n < (f a).stop) :
    (as.foldl (fun s a => s.merge (f a)) s).start = s.start ∧
      s.stop ≤ (as.foldl (fun s a => s.merge (f a)) s).stop ∧
      (as ≠ [] → n < (as.foldl (fun s a => s.merge (f a)) s).stop) := by
  induction as generalizing s with
  | nil => simp
  | cons a as ih =>
    obtain ⟨ha, has⟩ := forall_mem_cons.mp has
    have hstart := start_merge_of_le (hn.trans ha.1)
    obtain ⟨hfold, hstop, -⟩ := ih (hstart ▸ hn) has
    have hle := s.le_stop_merge (f a)
    have hlt : n < (s.merge (f a)).stop := ha.2.trans_le (Nat.le_max_right _ _)
    exact ⟨hfold.trans hstart, hle.trans hstop, fun _ => hlt.trans_le hstop⟩

namespace Grammar

variable {α : Type} {ts us : List Token} {t : Token} {s : Stream}

section Opening

variable {Q : α → Prop}

/-- What a run from `s` has come to, if not given up, is behind the current token. -/
def OpensAt (s : Stream) (Q : α → Prop) (r : Except ParseError α × Stream) : Prop :=
  ∀ a, r.1 = .ok a → r.2.Within s.rest ∧ Q a

theorem opensAt_giveUp (expected : String) : OpensAt s Q ((giveUp expected).run.run s) := nofun

theorem opensAt_get {f : Stream → TryParser α} (h : OpensAt s Q ((f s).run.run s)) :
    OpensAt s Q ((get >>= f : TryParser α).run.run s) := h

theorem opensAt_peekNext {f : TokenKind → TryParser α} (h : OpensAt s Q ((f s.nextKind).run.run s)) :
    OpensAt s Q ((liftM peekNext >>= f : TryParser α).run.run s) := h

theorem opensAt_take {f : Token → TryParser α} (hs : Laid s.tokens) (hk : s.kind ≠ .eof)
    (h : TryYields s.rest Q (fun _ => True) (f s.current)) :
    OpensAt s Q ((liftM take >>= f : TryParser α).run.run s) := by
  have hrest : s.rest ≠ [] := fun hrest => hk ((hs.ended _ _ suffix_rfl).mp hrest)
  obtain ⟨hresult, hleft, -⟩ := h s.advance (Stream.within_of_eq (tokens_advance hrest))
  exact fun a ha => ⟨hleft, hresult a ha⟩

end Opening

section Readings

variable {p : Pattern} {args : Option (List Pattern)} {owner : Option String} {name : String}
  {span : Span}

theorem readAt_leaf (hkind : t.kind ≠ .eof) (hspan : p.span = t.span) (hname : p.name? = none)
    (hident : ∀ name, t.kind = .ident name → name = "_") : p.ReadAt t us where
  kind := hkind
  start := by rw [hspan]
  stop := by rw [hspan]
  named := by simp [hname]
  bare _ name hk hne := absurd (hident name hk) hne

theorem readAt_merge {other : Span} (ht : Laid (t :: us)) (hkind : t.kind ≠ .eof)
    (hspan : p.span = t.span.merge other) (hother : t.span.stop ≤ other.start)
    (hname : p.name? = none) (hident : ∀ name, t.kind ≠ .ident name) : p.ReadAt t us where
  kind := hkind
  start := by
    have hwide := ht.wide t mem_cons_self hkind
    rw [hspan]
    exact Span.start_merge_of_le (by omega)
  stop := by
    rw [hspan]
    exact Span.le_stop_merge _ _
  named := by simp [hname]
  bare _ name hk := absurd hk (hident name)

theorem namedPattern_cases (h : namedPattern owner name args span = .ok p) :
    (∃ inner, p = .someOf inner span ∨ p = .okOf inner span ∨ p = .errOf inner span) ∨ p = .noneOf span ∨
      p = .binding name span ∨ p = .variant owner name (args.getD []) span := by
  have hmap {wrap : Pattern → Pattern} {arg : Except ParseError Pattern} (h : arg.map wrap = .ok p) :
      ∃ inner, p = wrap inner := by
    cases arg with
    | error e => cases h
    | ok inner => cases h; exact ⟨inner, rfl⟩
  unfold namedPattern at h
  split at h
  case h_1 | h_2 | h_3 =>
    obtain ⟨inner, rfl⟩ := hmap h
    simp
  all_goals
    cases h
    simp

theorem span_namedPattern (h : namedPattern owner name args span = .ok p) : p.span = span := by
  obtain ⟨inner, rfl | rfl | rfl⟩ | rfl | rfl | rfl := namedPattern_cases h <;> rfl

theorem name?_namedPattern {name found : String} (h : namedPattern owner name args span = .ok p)
    (hfound : found ∈ p.name?) : found = name := by
  obtain ⟨inner, rfl | rfl | rfl⟩ | rfl | rfl | rfl := namedPattern_cases h <;> simp_all [Pattern.name?]

theorem readAt_named {tail : List (String × Span)} (args : Option (List Pattern × Span))
    (ht : Laid (t :: us))
    (hname : t.kind = .ident name)
    (htail : ∀ seg ∈ tail, ∃ u ∈ us, u.kind = .ident seg.1 ∧ u.span = seg.2)
    (hargs : ∀ found ∈ args, t.span.stop ≤ found.2.start ∧ t.span.stop < found.2.stop)
    (hp : namedPattern
      (if (name :: tail.map (·.1)).length ≤ 1 then none else some
        (".".intercalate (name :: tail.map (·.1)).dropLast))
      ((name :: tail.map (·.1)).getLastD name) (args.map (·.1))
      (args.toList.foldl (fun s found => s.merge found.2)
        (tail.foldl (fun s seg => s.merge seg.2) t.span)) = .ok p) :
    p.ReadAt t us := by
  have hkind : t.kind ≠ .eof := by simp [hname]
  have hwide := ht.wide t mem_cons_self hkind
  have hbehind : ∀ seg ∈ tail, t.span.stop ≤ seg.2.start ∧ t.span.stop < seg.2.stop := by
    intro seg hseg
    obtain ⟨u, hu, hukind, hspan⟩ := htail seg hseg
    have hle := ht.stop_le hu
    have hlt := ht.wide u (mem_cons_of_mem _ hu) (by simp [hukind])
    rw [← hspan]
    omega
  obtain ⟨hstart, hstop, hmore⟩ := Span.foldl_merge (fun seg : String × Span => seg.2)
    (Nat.le_of_lt hwide) tail hbehind
  have hargs' : ∀ found ∈ args.toList, t.span.stop ≤ found.2.start ∧
      t.span.stop < found.2.stop := by simpa using hargs
  obtain ⟨hstart', hstop', hmore'⟩ := Span.foldl_merge (fun found : List Pattern × Span => found.2)
    (hstart.trans_le (Nat.le_of_lt hwide)) args.toList hargs'
  have hspan := span_namedPattern hp
  refine ⟨hkind, ?_, ?_, fun found hfound => ?_, fun hend name' hname' hne => ?_⟩
  · rw [hspan, hstart', hstart]
  · rw [hspan]
    exact hstop.trans hstop'
  · have hlast := name?_namedPattern hp hfound
    have hmem : found ∈ name :: tail.map (·.1) := by
      rw [hlast, getLastD_cons]
      exact getLastD_mem_cons
    rcases mem_cons.mp hmem with rfl | hmem
    · exact ⟨t, mem_cons_self, hname⟩
    · obtain ⟨seg, hseg, rfl⟩ := mem_map.mp hmem
      obtain ⟨u, hu, hukind, -⟩ := htail seg hseg
      exact ⟨u, mem_cons_of_mem _ hu, hukind⟩
  · cases hname.symm.trans hname'
    rw [hspan] at hend
    have htail' : tail = [] := by
      by_contra hne
      have hlt := hmore hne
      omega
    have hargs'' : args = none := by
      cases args with
      | none => rfl
      | some found =>
        have hlt := hmore' (by simp)
        omega
    subst htail' hargs''
    exact hp

end Readings

def ReadIn (ts : List Token) (p : Pattern) : Prop := ∃ t us, t :: us <:+ ts ∧ p.ReadAt t us

theorem OpensAt.tryYields {p : TryParser Pattern} (hpasses : TryPasses ts p)
    (hp : ∀ s : Stream, Laid s.tokens → OpensAt s (Pattern.ReadAt s.current s.rest) (p.run.run s))
    (hts : Laid ts) : TryYields ts (ReadIn ts) (fun _ => True) p := by
  intro s hs
  obtain ⟨-, hleft, htags, hclears⟩ := hpasses s hs
  exact ⟨fun a ha => ⟨s.current, s.rest, hs, (hp s (hts.suffix hs) a ha).2⟩, hleft, htags, hclears⟩

theorem ReadIn.stop_le {p : Pattern} (hp : ReadIn us p) (ht : Laid (t :: us)) :
    t.span.stop ≤ p.span.start := by
  obtain ⟨u, vs, hsuffix, hread⟩ := hp
  rw [hread.start]
  exact ht.stop_le (hsuffix.subset mem_cons_self)

theorem tryYields_pathTail :
    TryYields ts (fun tail => ∀ seg ∈ tail, ∃ t ∈ ts, t.kind = .ident seg.1 ∧ t.span = seg.2)
    (fun _ => True) pathTail := by
  refine (tryYields_tryMany (C := fun _ => True) (tryPasses_peek.bind fun kind => ?_)).clean fun _ _ =>
    trivial
  split
  · exact tryPasses_take.bind fun _ => tryYields_expectIdent.found
  · exact tryYields_done

def ArgsSpan (ts : List Token) (span : Span) : Prop :=
  ∃ opened ∈ ts, ∃ closed ∈ ts, opened.kind ≠ .eof ∧ span = opened.span.merge closed.span

theorem ArgsSpan.behind {span : Span} (h : ArgsSpan us span) (ht : Laid (t :: us)) :
    t.span.stop ≤ span.start ∧ t.span.stop < span.stop := by
  obtain ⟨opened, hopened, closed, hclosed, hkind, rfl⟩ := h
  have hle := ht.stop_le hopened
  have hle' := ht.stop_le hclosed
  have hlt := ht.wide opened (mem_cons_of_mem _ hopened) hkind
  exact ⟨Nat.le_min.mpr ⟨hle, hle'⟩, (hle.trans_lt hlt).trans_le (Span.le_stop_merge _ _)⟩

theorem tryYields_otherPatterns {pattern : TryParser Pattern} (h : TryPasses ts pattern)
    {opened : Token} (hopened : opened ∈ ts ∧ opened.kind = .lParen) (first : List Pattern) :
    TryYields ts (fun r => ArgsSpan ts r.2) (fun _ => True) (do
      let others ← if first.isEmpty then pure [] else tryMany do
        match ← peek with
        | .rParen => return .done
        | .eof => return .done
        | _ =>
          let _ ← expect .comma "',' between patterns"
          return .found (← pattern)
      let closed ← expect .rParen "')'"
      return (first ++ others, opened.span.merge closed.span)) := by
  have hclose (others : List Pattern) : TryYields ts (fun r => ArgsSpan ts r.2) (fun _ => True) (do
      let closed ← expect .rParen "')'"
      return (first ++ others, opened.span.merge closed.span)) := by
    refine (tryYields_expect _ _).bind_of fun closed hclosed => tryYields_pure ?_ trivial
    exact ⟨opened, hopened.1, closed, hclosed.1, by simp [hopened.2], rfl⟩
  split
  · exact tryYields_pure_bind (hclose _)
  · refine (tryYields_tryMany (U := fun _ => True) (C := fun _ => True) ?_).passes.bind hclose
    refine tryPasses_peek.bind fun kind => ?_
    split
    · exact tryYields_done
    · exact tryYields_done
    · exact (tryPasses_expect _ _).bind fun _ => h.found

theorem tryYields_patternArgs {pattern : TryParser Pattern} (h : TryPasses ts pattern) :
    TryYields ts (fun r => ArgsSpan ts r.2) (fun _ => True) (patternArgs pattern) := by
  refine (tryYields_expect _ _).bind_of fun opened hopened => tryPasses_peek.bind fun kind => ?_
  dsimp only
  split
  · exact tryYields_pure_bind (tryYields_otherPatterns h hopened _)
  · exact tryYields_pure_bind (tryYields_otherPatterns h hopened _)
  · exact h.bind fun _ => tryYields_pure_bind (tryYields_otherPatterns h hopened _)

theorem tryPasses_pattern (fuel : Nat) : TryPasses ts (pattern fuel) := by
  induction fuel with
  | zero => exact tryYields_giveUp _
  | succ fuel ih =>
    have hleaf {p : Pattern} : TryPasses ts (do
        let _ ← take
        return p) := tryPasses_take.bind fun _ => tryPasses_pure
    have hwrap {wrap : Pattern → Pattern} : TryPasses ts (do
        let _ ← take
        return wrap (← pattern fuel)) := tryPasses_take.bind fun _ => ih.bind fun _ => tryPasses_pure
    refine tryYields_get.passes.bind fun s => ?_
    dsimp only
    split
    · exact hleaf
    · refine tryPasses_take.bind fun _ => tryYields_pathTail.passes.bind fun tail =>
        tryPasses_peek.bind fun next => ?_
      have hnamed {r : Except ParseError Pattern} : TryPasses ts (ExceptT.mk (pure r)) :=
        tryYields_mk (fun _ _ => trivial) fun _ _ => trivial
      split
      · exact (tryYields_patternArgs ih).passes.bind fun _ => tryYields_pure_bind hnamed
      · exact tryYields_pure_bind hnamed
    · exact hleaf
    · refine TryPasses.bind (tryYields_lift passes_peekNext) fun next => ?_
      split
      · exact tryPasses_take.bind fun _ => tryPasses_take.bind fun _ => tryPasses_pure
      · exact tryYields_giveUp _
    · exact hleaf
    · exact hleaf
    · exact hleaf
    · exact hwrap
    · exact hwrap
    · exact hwrap
    · exact hleaf
    · exact tryYields_giveUp _

theorem opensAt_leaf {p : Pattern} (hs : Laid s.tokens) (hkind : s.kind ≠ .eof)
    (hspan : p.span = s.current.span) (hname : p.name? = none)
    (hident : ∀ name, s.kind = .ident name → name = "_") :
    OpensAt s (Pattern.ReadAt s.current s.rest) ((do
      let _ ← take
      return p : TryParser Pattern).run.run s) :=
  opensAt_take hs hkind (tryYields_pure (readAt_leaf hkind hspan hname hident) trivial)

theorem opensAt_wrap {inner : TryParser Pattern} {wrap : Pattern → Span → Pattern}
    (hinner : TryYields s.rest (ReadIn s.rest) (fun _ => True) inner) (hs : Laid s.tokens)
    {tag : String} (hkind : s.kind = .tag tag) (hspan : ∀ p span, (wrap p span).span = span)
    (hname : ∀ p span, (wrap p span).name? = none) :
    OpensAt s (Pattern.ReadAt s.current s.rest) ((do
      let _ ← take
      let p ← inner
      return wrap p (s.current.span.merge p.span) : TryParser Pattern).run.run s) := by
  have heof : s.kind ≠ .eof := by simp [hkind]
  refine opensAt_take hs heof (hinner.bind_of fun p hp => tryYields_pure ?_ trivial)
  refine readAt_merge hs heof (hspan _ _) (hp.stop_le hs) (hname _ _) fun name hident => ?_
  cases hkind.symm.trans hident

theorem opensAt_pattern (fuel : Nat) (s : Stream) (hs : Laid s.tokens) :
    OpensAt s (Pattern.ReadAt s.current s.rest) ((pattern fuel).run.run s) := by
  induction fuel generalizing s with
  | zero => exact opensAt_giveUp _
  | succ fuel ih =>
    have hrest : Laid s.rest := hs.suffix (suffix_cons _ _)
    have hinner := OpensAt.tryYields (tryPasses_pattern fuel) ih hrest
    have hleaf {p : Pattern} (hkind : s.kind ≠ .eof) (hspan : p.span = s.current.span)
        (hname : p.name? = none) (hident : ∀ name, s.kind ≠ .ident name) :=
      opensAt_leaf hs hkind hspan hname fun name h => absurd h (hident name)
    refine opensAt_get ?_
    dsimp only
    split
    case h_3 hkind | h_5 hkind | h_6 hkind | h_7 hkind | h_11 hkind =>
      exact hleaf (by simp [Stream.kind, hkind]) rfl rfl (by simp [Stream.kind, hkind])
    case h_8 hkind | h_9 hkind | h_10 hkind =>
      exact opensAt_wrap hinner hs hkind (fun _ _ => rfl) fun _ _ => rfl
    · next hkind =>
      exact opensAt_leaf hs (by simp [Stream.kind, hkind]) rfl rfl (by simp [Stream.kind, hkind])
    · next name _ hkind =>
      refine opensAt_take hs (by simp [Stream.kind, hkind])
        (tryYields_pathTail.bind_of fun tail htail => ?_)
      refine tryPasses_peek.bind fun next => ?_
      split
      · refine (tryYields_patternArgs hinner.passes).bind_of fun r hr => tryYields_pure_bind ?_
        refine tryYields_mk (fun p hp => readAt_named (some r) hs hkind htail ?_ ?_) fun _ _ => trivial
        · rintro found ⟨⟩
          exact hr.behind hs
        · rw [foldl_cons, Span.merge_self] at hp
          exact hp
      · refine tryYields_pure_bind (tryYields_mk (fun p hp => ?_) fun _ _ => trivial)
        refine readAt_named none hs hkind htail (by simp) ?_
        rw [foldl_cons, Span.merge_self] at hp
        exact hp
    · next hkind =>
      refine opensAt_peekNext ?_
      split
      · refine opensAt_take hs (by simp [Stream.kind, hkind]) ?_
        refine (tryYields_lift yields_take).bind_of fun number hnumber => ?_
        refine tryYields_pure (readAt_merge hs (by simp [hkind]) rfl (hs.stop_le hnumber) rfl ?_) trivial
        simp [hkind]
      · exact opensAt_giveUp _
    · exact opensAt_giveUp _

theorem passes_patternOrNone : Passes ts patternOrNone := by
  refine passes_get.bind fun s => (Yields.passes (tryPasses_pattern _)).bind fun found => ?_
  split
  · exact passes_pure
  · refine yields_reported fun _ => Passes.bind ?_ fun _ => passes_pure
    exact passes_modify (fun _ hs => hs.skipUntil _) (fun s => s.skipUntil_openTags _) fun s =>
      s.skipUntil_errors _

theorem opensAt_patternOrNone (hs : Laid s.tokens) {p : Pattern} (h : (patternOrNone.run s).1 = some p) :
    (patternOrNone.run s).2.Within s.rest ∧ p.ReadAt s.current s.rest := by
  have hopens := opensAt_pattern (s.rest.length + 1) s hs
  have hget : (get : Parser Stream).run s = (s, s) := rfl
  rw [patternOrNone, run_bind_eq hget, run_bind_eq (Prod.eta ((pattern _).run.run s)).symm] at h ⊢
  cases hcase : ((pattern (s.rest.length + 1)).run.run s).1 with
  | ok p =>
    rw [hcase] at h
    cases h
    exact hopens p hcase
  | error e =>
    rw [hcase] at h
    cases h

end Grammar

end TagLang

import TagLang.Proofs.Grammar.Lockstep.Item

/-! # Errors of a function stay inside it

Whatever stands between the head of a function and its closing tag, the parser leaves the function
right behind that tag. The items and the errors behind it are those of a module that begins there.
-/

namespace TagLang.Grammar
open List

/-! ## Inside a function -/

section Inside

def Enclosed (t : Token) : Prop := t.kind ≠ .closeTag "F" ∧ t.kind ≠ .closeTag "M" ∧ t.kind ≠ .eof

/-- A function is left at the tag `close` at the latest, and the errors `base` were found before it. -/
structure Inside (close : Token) (behind : List Token) (base : List ParseError) (s : Stream) : Prop where
  ahead : ∃ body, s.tokens = body ++ close :: behind ∧ ∀ t ∈ body, Enclosed t
  errors : ∃ own, s.errors = own ++ base

variable {close : Token} {behind : List Token} {base : List ParseError} {s : Stream} {tag : String}

theorem Inside.more (h : Inside close behind base s) (hbehind : behind ≠ []) : s.rest ≠ [] := by
  obtain ⟨body, htokens, -⟩ := h.ahead
  rw [Stream.tokens] at htokens
  cases body with
  | nil => exact (cons.inj htokens).2 ▸ hbehind
  | cons t body => exact (cons.inj htokens).2 ▸ by simp

theorem Inside.withError (h : Inside close behind base s) (e : ParseError) :
    Inside close behind base (s.withError e) := by
  obtain ⟨own, herrors⟩ := h.errors
  exact ⟨h.ahead, e :: own, by rw [Stream.withError, herrors]; rfl⟩

/-- The function ends where one of its closing tag, that of the module and the end of input is met. -/
theorem Inside.tokens_eq (h : Inside close behind base s) (hk : ¬ Enclosed s.current) :
    s.tokens = close :: behind := by
  obtain ⟨body, htokens, hbody⟩ := h.ahead
  cases body with
  | nil => exact htokens
  | cons t body =>
    have hcurrent : s.current = t := (cons.inj htokens).1
    exact absurd (hcurrent ▸ hbody t mem_cons_self) hk

section

variable (hclose : close.kind = .closeTag "F")
include hclose

theorem Inside.advance (h : Inside close behind base s) (hk : s.kind ≠ .closeTag "F") :
    Inside close behind base s.advance := by
  obtain ⟨body, htokens, hbody⟩ := h.ahead
  rw [Stream.tokens] at htokens
  cases body with
  | nil =>
    have hkind : s.kind = close.kind := congrArg Token.kind (cons.inj htokens).1
    exact absurd (hkind.trans hclose) hk
  | cons t body =>
    have hrest : s.rest = body ++ close :: behind := (cons.inj htokens).2
    refine ⟨⟨body, ?_, fun t' ht' => hbody t' (mem_cons_of_mem _ ht')⟩, ?_⟩
    · rw [tokens_advance (by simp [hrest]), hrest]
    · rw [errors_advance]
      exact h.errors

theorem calm_inside : Calm (Alone (Inside close behind base)) :=
  calm_alone (fun _ _ h hk => h.advance hclose (by simp [hk])) fun _ e h => h.withError e

theorem Inside.opening (h : Inside close behind base s) (hk : s.kind = .tag tag) :
    Inside close behind base ((opening tag).run s).2 :=
  (respects_structuralAttrs (calm_inside hclose) tag s.current.span).keeps
    (h.advance hclose (by simp [hk]))

theorem Inside.skipStrayClose (h : Inside close behind base s) (hk : s.kind ≠ .closeTag "F") :
    Inside close behind base (skipStrayClose.run s).2 :=
  ((respects_report (calm_inside hclose) _).bind fun _ => respects_strayAttrs (calm_inside hclose)).keeps
    (h.advance hclose hk)

theorem Inside.expectClose (h : Inside close behind base s) (htag : tag ≠ "F")
    (construct id : String) (span : Span) :
    Inside close behind base ((expectClose tag construct id span).run s).2 := by
  by_cases hk : s.kind = .closeTag tag
  · have hnext : Inside close behind base s.advance := h.advance hclose (by simp [hk, htag])
    rcases attrs_or_not s.advance with ⟨fields, hattrs⟩ | hattrs
    · have hthen : Inside close behind base s.advance.advance := hnext.advance hclose (by simp [hattrs])
      rw [run_expectClose_some _ _ _ hk hattrs]
      split
      · exact hthen.withError _
      · exact hthen
    · rw [run_expectClose_none _ _ _ hk hattrs]
      split
      · exact hnext
      · exact hnext.withError _
  · rw [run_expectClose_other _ _ _ hk]
    exact h.withError _

theorem Inside.expectSimpleClose (h : Inside close behind base s) (htag : tag ≠ "F")
    (construct : String) (span : Span) :
    Inside close behind base ((expectSimpleClose tag construct span).run s).2 := by
  by_cases hk : s.kind = .closeTag tag
  · rw [run_expectSimpleClose _ _ hk]
    exact (respects_takeAttrs (calm_inside hclose)).keeps (h.advance hclose (by simp [hk, htag]))
  · rw [run_expectSimpleClose_other _ _ hk]
    exact h.withError _

end

/-- Every step of the grammar inside a function stays before its closing tag. -/
def confinement (base : List ParseError) (hclose : close.kind = .closeTag "F")
    (hbehind : behind ≠ []) : Lockstep where
  exact := True
  rel _ := Alone (Inside close behind base)
  guards tags := "F" ∈ tags
  inner tag := tag ≠ "F"
  inner_body {tag} hmem hF := by
    subst hF
    exact absurd hmem (by decide)
  guards_cons _ h := mem_cons_of_mem _ h
  current h := by rw [h.1]; exact ⟨rfl, fun _ => rfl⟩
  nextKind h _ := by rw [h.1]
  openTags h := by rw [h.1]
  length h := by rw [h.1]
  more h _ := h.2.more hbehind
  advances h hk := by
    obtain ⟨rfl, h⟩ := h
    refine ⟨rfl, h.advance hclose fun hF => ?_⟩
    rw [hF] at hk
    cases hk
  reports h he := by
    obtain ⟨rfl, h⟩ := h
    obtain rfl := he trivial
    exact ⟨rfl, h.withError _⟩
  discards h hk _ he := by
    obtain ⟨rfl, h⟩ := h
    obtain rfl := he trivial
    exact ⟨rfl, (h.withError _).advance hclose (hk "F")⟩
  reopens tags h := by
    obtain ⟨rfl, h⟩ := h
    exact ⟨rfl, h.ahead, h.errors⟩
  strays {σ s t name} h hguards hk hopen := by
    obtain ⟨rfl, h⟩ := h
    refine ⟨rfl, h.skipStrayClose hclose fun hF => ?_⟩
    obtain rfl : name = "F" := TokenKind.closeTag.inj (hk.symm.trans hF)
    rw [Stream.isOpen, contains_iff_mem.mpr hguards] at hopen
    cases hopen
  opens {σ s t tag} h _ _ hk := by
    obtain ⟨rfl, h⟩ := h
    exact ⟨_, _, _, fun _ => rfl, rfl, rfl, rfl, h.opening hclose hk⟩
  closes construct h _ hinner he := by
    obtain ⟨rfl, h⟩ := h
    obtain rfl := he trivial
    exact ⟨fun _ => rfl, rfl, h.expectClose hclose hinner _ _ _⟩
  opensCall h _ _ hk := by
    obtain ⟨rfl, h⟩ := h
    exact ⟨rfl, h.advance hclose (by simp [hk])⟩
  closesCall construct h _ hinner he := by
    obtain ⟨rfl, h⟩ := h
    obtain rfl := he trivial
    exact ⟨fun _ => rfl, rfl, h.expectSimpleClose hclose hinner _ _⟩

end Inside

/-! ## Errors found before -/

section Under

def Stream.under (s : Stream) (base : List ParseError) : Stream := { s with errors := s.errors ++ base }

abbrev Stream.Terminated : Stream → Prop := Stream.EndsAfter fun _ => True

theorem advance_under (s : Stream) (base : List ParseError) :
    (s.under base).advance = s.advance.under base := by
  unfold Stream.advance Stream.under
  dsimp only
  split <;> rfl

variable (base : List ParseError)

def Framed (s t : Stream) : Prop := s = t.under base ∧ t.Terminated

theorem steady_framed : Steady (Framed base) where
  current h := by rw [h.1]; rfl
  advance h := ⟨by rw [h.1, advance_under], h.2.advance⟩
  report e h := ⟨by rw [h.1]; rfl, h.2⟩

/-- No step of the grammar looks at the errors found before. -/
def framing : Lockstep :=
  .ofSteady (steady_framed base) (fun h => by rw [h.1]; exact ⟨rfl, rfl⟩)
    (fun h hk => by
      obtain ⟨rfl, ht⟩ := h
      exact ht.more hk)
    fun tags h => by
      obtain ⟨rfl, ht⟩ := h
      exact ⟨rfl, ht⟩

end Under

/-! ## A function with its closing tag -/

section Function

variable {parts : List (Head → Head)}

theorem id_announced (tag : String) {s : Stream} {fields : List String}
    (hattrs : s.advance.kind = .attrs fields) : ((announced tag).run s).1.id = fields.headD "" := by
  have hid : ((announced tag).run s).1.id =
      ((structuralAttrs tag s.current.span).run s.advance).1.1.headD "" := rfl
  rw [hid, run_structuralAttrs_some _ _ hattrs]

theorem keeps_announced {P : Stream → Prop} (hP : Calm (Alone P)) (tag : String) {s : Stream}
    (hs : P s.advance) : P ((announced tag).run s).2 := by
  have hhead : Respects (Alone P) (structuralAttrs tag s.current.span >>= fun x =>
      requiredField x.1 1 tag "name" x.2 >>= fun name => modifiers x.1 tag x.2 >>= fun m =>
        pure (Announced.mk (x.1.headD "") name m.1 m.2 x.2)) :=
    (respects_structuralAttrs hP _ _).bind fun x => (respects_requiredField hP _ _ _ _ _).bind fun name =>
      (respects_modifiers hP _ _ _).bind fun _ => respects_pure
  exact hhead.keeps hs

/-- In a function of a module no clause is open, and only the function and the module can be closed. -/
theorem not_enclosed_of_blockEnds {s : Stream} (h : Lockstep.BlockEnds s)
    (htags : s.openTags = ["F", "M"]) : ¬ Enclosed s.current := by
  intro henclosed
  have hkind : s.kind ≠ .closeTag "F" ∧ s.kind ≠ .closeTag "M" ∧ s.kind ≠ .eof := henclosed
  unfold Lockstep.BlockEnds at h
  split at h
  · next hk => exact hkind.2.2 hk
  · next name hk =>
    rw [Stream.isOpen, htags] at h
    rcases mem_cons.mp (contains_iff_mem.mp h) with rfl | hmem
    · exact hkind.1 hk
    · obtain rfl := mem_singleton.mp hmem
      exact hkind.2.1 hk
  · simp [Stream.isOpenClause, clauseTags, Stream.isOpen, htags] at h
  · exact h

variable {close closeAttrs : Token} {behind after : List Token} {base : List ParseError}
  {fields : List String} {s : Stream}

section Confined

variable (hclose : close.kind = .closeTag "F") (hbehind : behind ≠ []) (h : Inside close behind base s)
  (htags : s.openTags = ["F", "M"]) {t : Stream} {n : Nat}
include hclose hbehind h htags

theorem Inside.near : (confinement base hclose hbehind).Near ⟨[], ["F", "M"], s.rest.length + 1⟩ s s :=
  ⟨⟨rfl, h⟩, htags, mem_cons_self, Nat.lt_succ_self _⟩

theorem Inside.run_block {body : List Stmt} (hn : s.rest.length + 1 ≤ n + 1)
    (hrun : (blockRule (rules n)).run s = (body, t)) :
    Inside close behind base t ∧ t.openTags = ["F", "M"] ∧ t.tokens = close :: behind := by
  obtain ⟨⟨-, hend⟩, hstop⟩ := Lockstep.runs_blockRule (G := instFallback) (Lockstep.follows_rules n) hn
    (h.near hclose hbehind htags)
  rw [hrun] at hend hstop
  have hinside : Inside close behind base t := hend.rel.2
  exact ⟨hinside, hend.tags, hinside.tokens_eq (not_enclosed_of_blockEnds hstop hend.tags)⟩

theorem Inside.run_headParts (hn : s.rest.length + 1 ≤ n)
    (hrun : (headParts (rules n)).run s = (parts, t)) :
    Inside close behind base t ∧ t.openTags = ["F", "M"] := by
  obtain ⟨-, hend⟩ := Lockstep.steps_headParts (G := instFallback) (Lockstep.follows_rules n) hn
    (h.near hclose hbehind htags)
  rw [hrun] at hend
  exact ⟨hend.rel.2, hend.tags⟩

end Confined

theorem run_expectClose_match {tag id : String} (construct : String) (span : Span)
    (htokens : s.tokens = close :: closeAttrs :: after) (hafter : after ≠ [])
    (hclose : close.kind = .closeTag tag) (hattrs : closeAttrs.kind = .attrs fields)
    (hid : fields.headD "" = id) :
    ((expectClose tag construct id span).run s).2.tokens = after ∧
      ((expectClose tag construct id span).run s).2.errors = s.errors ∧
      ((expectClose tag construct id span).run s).2.openTags = s.openTags := by
  obtain ⟨hcurrent, hrest⟩ := cons.inj htokens
  have hnext : s.advance.tokens = closeAttrs :: after := (tokens_advance (by simp [hrest])).trans hrest
  obtain ⟨hcurrent', hrest'⟩ := cons.inj hnext
  have hk : s.kind = .closeTag tag := (congrArg Token.kind hcurrent).trans hclose
  have hk' : s.advance.kind = .attrs fields := (congrArg Token.kind hcurrent').trans hattrs
  rw [run_expectClose_some construct id span hk hk', if_neg (not_not.mpr hid)]
  refine ⟨?_, by simp, by simp⟩
  rw [tokens_advance (by rw [hrest']; exact hafter), hrest']

theorem run_withOpen {α : Type} {tag : String} {p : Parser α} {s t : Stream} {a : α}
    (h : p.run (s.withOpenTags (tag :: s.openTags)) = (a, t)) :
    (withOpen tag p).run s = (a, t.withOpenTags t.openTags.tail) := by
  have hpush : (modify fun s => { s with openTags := tag :: s.openTags } : Parser PUnit).run s =
    (⟨⟩, s.withOpenTags (tag :: s.openTags)) := rfl
  rw [withOpen, run_bind_eq hpush, run_bind_eq h]
  rfl

theorem stream_function {a : Announced} {s₁ s₂ s₃ s₄ s₅ : Stream} {body : List Stmt} {stop : Span}
    (hhead : (announced "F").run s = (a, s₁)) (hopen : s₁.withOpenTags ("F" :: s₁.openTags) = s₂)
    (hparts : (headParts (rules (s₂.rest.length + 1))).run s₂ = (parts, s₃))
    (hblock : (blockRule (rules s₃.rest.length)).run s₃ = (body, s₄))
    (hclose : (expectClose "F" "function" a.id a.span).run s₄ = (stop, s₅)) :
    ((function "F").run s).2 = s₅.withOpenTags s₅.openTags.tail := by
  have hrules (u : Stream) : currentRules.run u = (rules (u.rest.length + 1), u) := rfl
  have hbody : (rules (s₃.rest.length + 1)).block.run s₃ = (body, s₄) := hblock
  rw [function, run_bind_eq hhead, run_withOpen]
  rw [hopen, run_bind_eq (hrules s₂), run_bind_eq hparts, run_bind_eq (hrules s₃),
    run_bind_eq hbody, if_pos rfl, run_bind_eq hclose]
  rfl

theorem run_function {opener attrs : Token} {body : List Token} {closeFields : List String}
    (htokens : s.tokens = opener :: attrs :: (body ++ close :: closeAttrs :: after))
    (htags : s.openTags = ["M"]) (hattrs : attrs.kind = .attrs fields)
    (hbody : ∀ t ∈ body, Enclosed t) (hclose : close.kind = .closeTag "F")
    (hcloseAttrs : closeAttrs.kind = .attrs closeFields)
    (hid : closeFields.headD "" = fields.headD "") (hafter : after ≠ []) :
    ((function "F").run s).2.tokens = after ∧ (∃ own, ((function "F").run s).2.errors = own ++ s.errors) ∧
      ((function "F").run s).2.openTags = ["M"] := by
  obtain ⟨-, hrest⟩ := cons.inj htokens
  have hnext : s.advance.tokens = attrs :: (body ++ close :: closeAttrs :: after) :=
    (tokens_advance (by simp [hrest])).trans hrest
  obtain ⟨hcurrent, hrest'⟩ := cons.inj hnext
  have hk : s.advance.kind = .attrs fields := (congrArg Token.kind hcurrent).trans hattrs
  have hstart : Inside close (closeAttrs :: after) s.errors s.advance := by
    refine ⟨⟨attrs :: body, hnext, fun t ht => ?_⟩, [], by simp⟩
    rcases mem_cons.mp ht with rfl | ht
    · simp [Enclosed, hattrs]
    · exact hbody t ht
  have hcalm : Calm (Alone fun u => Inside close (closeAttrs :: after) s.errors u ∧ u.openTags = ["M"]) :=
    calm_alone (fun u _ h hk => ⟨h.1.advance hclose (by simp [hk]), (openTags_advance u).trans h.2⟩)
      fun u e h => ⟨h.1.withError e, h.2⟩
  have hhead := keeps_announced hcalm "F" ⟨hstart, (openTags_advance s).trans htags⟩
  have hhead' := id_announced "F" hk
  rcases hs₁ : (announced "F").run s with ⟨a, s₁⟩
  rw [hs₁] at hhead hhead'
  have hinside : Inside close (closeAttrs :: after) s.errors (s₁.withOpenTags ("F" :: s₁.openTags)) :=
    ⟨hhead.1.ahead, hhead.1.errors⟩
  have htags₂ : (s₁.withOpenTags ("F" :: s₁.openTags)).openTags = ["F", "M"] :=
    congrArg ("F" :: ·) hhead.2
  rcases hs₃ : (headParts (rules ((s₁.withOpenTags ("F" :: s₁.openTags)).rest.length + 1))).run
    (s₁.withOpenTags ("F" :: s₁.openTags)) with ⟨parts, s₃⟩
  obtain ⟨hparts, htags₃⟩ := hinside.run_headParts hclose (cons_ne_nil _ _) htags₂ (Nat.le_refl _) hs₃
  rcases hs₄ : (blockRule (rules s₃.rest.length)).run s₃ with ⟨stmts, s₄⟩
  obtain ⟨hblock, htags₄, htokens₄⟩ := hparts.run_block hclose (cons_ne_nil _ _) htags₃
    (Nat.le_refl _) hs₄
  rcases hs₅ : (expectClose "F" "function" a.id a.span).run s₄ with ⟨stop, s₅⟩
  obtain ⟨htokens₅, herrors₅, htags₅⟩ :=
    run_expectClose_match "function" a.span htokens₄ hafter hclose hcloseAttrs
    (hid.trans hhead'.symm)
  rw [hs₅] at htokens₅ herrors₅ htags₅
  rw [stream_function hs₁ rfl hs₃ hs₄ hs₅]
  refine ⟨htokens₅, ?_, ?_⟩
  · obtain ⟨own, herrors⟩ := hblock.errors
    exact ⟨own, herrors₅.trans herrors⟩
  · change List.tail _ = _
    rw [htags₅, htags₄]
    rfl

end Function

/-! ## The top level of a module -/

section TopLevel

variable {s : Stream} {t : Stream} {n : Nat} {parts : List TopLevel}

inductive Reaches : Stream → List TopLevel → Stream → Prop
  | here (s : Stream) : Reaches s [] s
  | skip {s s' t : Stream} {parts : List TopLevel} : topLevelRound.run s = (.skip, s') →
    Reaches s' parts t → Reaches s parts t
  | found {s s' t : Stream} {a : TopLevel} {parts : List TopLevel} :
    topLevelRound.run s = (.found a, s') → Reaches s' parts t → Reaches s (a :: parts) t

theorem under_nil (s : Stream) : s.under [] = s := by
  rw [Stream.under, append_nil]

theorem tags_module {name : String} (hname : name ≠ "M") : name ∉ ["M"] :=
  fun hmem => hname (mem_singleton.mp hmem)

theorem round_topLevel {s s' : Stream} {r : Round TopLevel} (hr : topLevelRound.run s = (r, s'))
    (hdone : r ≠ .done) (hs : s.Terminated) (htags : s.openTags = ["M"]) :
    s'.Terminated ∧ s'.openTags = ["M"] ∧ s'.rest.length < s.rest.length := by
  have hnear : (framing []).Near (Phase.before ⟨[], ["M"], s.rest.length⟩) s s :=
    ⟨⟨(under_nil s).symm, hs⟩, htags, trivial, Nat.lt_succ_self _⟩
  have hround := Lockstep.turns_topLevelRound (F := instFallback) (G := instFallback)
    (L := framing []) (fun _ _ => trivial) (fun _ => tags_module) hnear
  rw [Lockstep.TurnsFrom, Lockstep.Runs, Lockstep.Runs, hr] at hround
  rcases hround with ⟨-, hnext⟩ | ⟨⟨⟨hend, -⟩, -⟩, -⟩
  · exact ⟨hnext.rel.2, hnext.tags, hnext.bound⟩
  · exact absurd hend hdone

theorem Reaches.run_collect (h : Reaches s parts t) (hs : s.Terminated) (htags : s.openTags = ["M"])
    (hn : s.rest.length < n) :
    t.Terminated ∧ t.openTags = ["M"] ∧ ∃ m, t.rest.length < m ∧ (collect topLevelRound n).run s =
      (parts ++ ((collect topLevelRound m).run t).1, ((collect topLevelRound m).run t).2) := by
  induction h generalizing n with
  | here s => exact ⟨hs, htags, n, hn, rfl⟩
  | skip hround _ ih | found hround _ ih =>
    obtain ⟨hs', htags', hlength⟩ := round_topLevel hround (by simp) hs htags
    obtain _ | n := n
    · omega
    obtain ⟨ht, htags'', m, hm, hrun⟩ := ih hs' htags' (n := n) (by omega)
    refine ⟨ht, htags'', m, hm, ?_⟩
    rw [Lockstep.run_collect, hround]
    simp only [hrun, cons_append]

theorem terminated_topLevel (ht : t.Terminated) (htags : t.openTags = ["M"]) :
    (topLevel.run t).2.Terminated := by
  have hnear : (framing []).Near ⟨[], ["M"], t.rest.length + 1⟩ t t :=
    ⟨⟨(under_nil t).symm, ht⟩, htags, trivial, Nat.lt_succ_self _⟩
  exact (Lockstep.runs_topLevel (F := instFallback) (G := instFallback) (L := framing [])
    (fun _ _ => trivial) (fun _ => tags_module) hnear).1.2.rel.2

theorem collect_under (base : List ParseError) (ht : t.Terminated) (htags : t.openTags = ["M"])
    (hn : t.rest.length < n) :
    (collect topLevelRound n).run (t.under base) =
      ((topLevel.run t).1, (topLevel.run t).2.under base) := by
  have hnear : (framing base).Near ⟨[], ["M"], t.rest.length + 1⟩ (t.under base) t :=
    ⟨⟨rfl, ht⟩, htags, trivial, Nat.lt_succ_self _⟩
  obtain ⟨⟨hparts, hend⟩, -⟩ := Lockstep.turns_collect (F := instFallback) (G := instFallback)
    (L := framing base) (i := ⟨[], ["M"], 0⟩)
    (fun _ _ => Lockstep.turns_topLevelRound (fun _ _ => trivial) fun _ => tags_module) hn
      (Nat.le_refl _) hnear
  have hsame := (Lockstep.like_list hparts).2 trivial
  exact Prod.ext hsame hend.rel.1

theorem topLevelRound_function (hk : s.kind = .tag "F") :
    topLevelRound.run s =
      (.found (.item (.function ((function "F").run s).1)), ((function "F").run s).2) := by
  rw [topLevelRound, run_bind_eq (run_peek hk)]
  rfl

theorem ofTokens_fresh (tokens : List Token) :
    (Stream.ofTokens tokens).errors = [] ∧ (Stream.ofTokens tokens).openTags = [] := by
  unfold Stream.ofTokens
  dsimp only
  split <;> exact ⟨rfl, rfl⟩

theorem Stream.Terminated.last (hs : s.Terminated) {init : List Token} {t : Token}
    (htokens : s.tokens = init ++ [t]) : t.kind = .eof := by
  obtain ⟨init', last, hlist, hlast, -⟩ := hs
  obtain ⟨-, hsame⟩ := append_inj' (htokens.symm.trans hlist) rfl
  rw [head_eq_of_cons_eq hsame]
  exact hlast

theorem eq_under_ofTokens (hs : s.Terminated) :
    s = ((Stream.ofTokens s.tokens).withOpenTags s.openTags).under s.errors := by
  rw [ofTokens_tokens hs]
  rfl

def moduleEnd (id : String) (head : Span) : Parser Span := do
  let stop ← expectClose "M" "module" id head
  modify fun s => { s with openTags := s.openTags.tail }
  if (← peek) ≠ .eof then reportUnexpected "end of input after module"
  return stop

theorem run_moduleContents (id name : String) (head : Span)
    (h : topLevel.run (s.withOpenTags ("M" :: s.openTags)) = (parts, t)) :
    (moduleContents id name head).run s =
      (⟨id, name, parts.filterMap TopLevel.path?, parts.filterMap TopLevel.item?,
        head.merge ((moduleEnd id head).run t).1⟩, ((moduleEnd id head).run t).2) := by
  rcases hstop : (expectClose "M" "module" id head).run t with ⟨stop, u⟩
  have hinside : (topLevel >>= fun parts => expectClose "M" "module" id head >>= fun stop =>
      pure (Module.mk id name (parts.filterMap TopLevel.path?) (parts.filterMap TopLevel.item?)
        (head.merge stop)) :
      Parser Module).run (s.withOpenTags ("M" :: s.openTags)) =
      (Module.mk id name (parts.filterMap TopLevel.path?) (parts.filterMap TopLevel.item?)
        (head.merge stop), u) := by
    rw [run_bind_eq h, run_bind_eq hstop]
    rfl
  have hpop : (modify fun s => { s with openTags := s.openTags.tail } : Parser PUnit).run u =
    (⟨⟩, u.withOpenTags u.openTags.tail) := rfl
  rw [moduleContents, run_bind_eq (run_withOpen hinside), moduleEnd, run_bind_eq hstop, run_bind_eq hpop,
    run_bind_eq (run_peek rfl), run_bind_eq (run_peek rfl)]
  split <;> rfl

theorem moduleEnd_under (id : String) (head : Span) (base : List ParseError) (ht : t.Terminated) :
    (moduleEnd id head).run (t.under base) =
      (((moduleEnd id head).run t).1, ((moduleEnd id head).run t).2.under base) := by
  have hframed := steady_framed base
  have hpop : Respects (Framed base)
      (modify fun s => { s with openTags := s.openTags.tail } : Parser PUnit) := by
    rintro _ u ⟨rfl, hu⟩
    exact ⟨rfl, rfl, hu⟩
  have hend : Respects (Framed base) (moduleEnd id head) := by
    refine (respects_expectClose hframed _ _ _ _).bind fun stop => hpop.bind fun _ =>
      (respects_peek hframed.calm).bind fun kind => ?_
    split
    · exact (respects_reportUnexpected hframed.calm _).bind fun _ => respects_pure
    · exact respects_pure
  obtain ⟨hstop, hrest⟩ := hend ⟨rfl, ht⟩
  exact Prod.ext hstop hrest.1

theorem collect_function {after : List Token} {base : List ParseError} (hs : s.Terminated)
    (htags : s.openTags = ["M"]) (hk : s.kind = .tag "F")
    (hafter : ((function "F").run s).2.tokens = after)
    (herrors : ((function "F").run s).2.errors = base) (hn : s.rest.length < n) :
    ((function "F").run s).2 = ((Stream.ofTokens after).withOpenTags ["M"]).under base ∧
      (topLevel.run ((Stream.ofTokens after).withOpenTags ["M"])).2.Terminated ∧
      (collect topLevelRound n).run s =
        (.item (.function ((function "F").run s).1) ::
          (topLevel.run ((Stream.ofTokens after).withOpenTags ["M"])).1,
          (topLevel.run ((Stream.ofTokens after).withOpenTags ["M"])).2.under base) := by
  have hround := topLevelRound_function hk
  obtain ⟨hend, hendTags, hlength⟩ := round_topLevel hround (by simp) hs htags
  have hstream := eq_under_ofTokens hend
  rw [hafter, herrors, hendTags] at hstream
  have hnext : ((Stream.ofTokens after).withOpenTags ["M"]).Terminated := by
    rw [hstream] at hend
    exact hend
  have hnextLength : ((Stream.ofTokens after).withOpenTags ["M"]).rest.length < s.rest.length := by
    rw [hstream] at hlength
    exact hlength
  refine ⟨hstream, terminated_topLevel hnext rfl, ?_⟩
  obtain _ | n := n
  · omega
  rw [Lockstep.run_collect, hround]
  dsimp only
  rw [hstream, collect_under base hnext rfl (by omega)]

theorem keeps_moduleHeader {P : Stream → Prop} (hP : Steady (Alone P)) (hs : P s) :
    P (moduleHeader.run s).2 := by
  have hheader : Respects (Alone P) moduleHeader := (respects_take hP).bind fun start =>
    (respects_structuralAttrs hP.calm _ _).bind fun x =>
      (respects_requiredField hP.calm _ _ _ _ _).bind fun _ => respects_pure
  exact hheader.keeps hs

/-- In a module, the rounds of the top level have led to the head of a function. Whatever stands in
the function, it is left right behind its closing tag. The parts of the module behind it and the
errors found there are those of a module with the same header that has nothing before them, whatever
stands in the function. -/
theorem function_isolated {m s₀ s : Stream} {id name : String} {head : Span} {parts : List TopLevel}
    {opener attrs close closeAttrs : Token} {fields closeFields : List String} {body after : List Token}
    (hm : m.Terminated) (htags : m.openTags = []) (hheader : moduleHeader.run m = ((id, name, head), s₀))
    (hreach : Reaches (s₀.withOpenTags ["M"]) parts s)
    (htokens : s.tokens = opener :: attrs :: (body ++ close :: closeAttrs :: after))
    (hopener : opener.kind = .tag "F")
    (hattrs : attrs.kind = .attrs fields) (hbody : ∀ t ∈ body, Enclosed t)
    (hclose : close.kind = .closeTag "F")
    (hcloseAttrs : closeAttrs.kind = .attrs closeFields) (hid : closeFields.headD "" = fields.headD "") :
    ∃ f own, (function "F").run s =
      (f, { Stream.ofTokens after with errors := own ++ s.errors, openTags := ["M"] }) ∧
      moduleBody.run m =
        (let rest := ((moduleContents id name head).run (.ofTokens after)).1
        { rest with
          usings := parts.filterMap TopLevel.path? ++ rest.usings
          items := parts.filterMap TopLevel.item? ++ .function f :: rest.items },
        ((moduleContents id name head).run (.ofTokens after)).2.under (own ++ s.errors)) := by
  have hstart : s₀.Terminated ∧ s₀.openTags = [] := by
    have hsteady : Steady (Alone fun u => u.Terminated ∧ u.openTags = []) :=
      steady_alone (fun u h => ⟨h.1.advance, (openTags_advance u).trans h.2⟩) fun _ _ h => h
    have hkept := keeps_moduleHeader hsteady ⟨hm, htags⟩
    rw [hheader] at hkept
    exact hkept
  obtain ⟨hs, hsTags, n, hn, htop⟩ := hreach.run_collect (n := s₀.rest.length + 1) hstart.1 rfl
    (Nat.lt_succ_self _)
  have hafter : after ≠ [] := by
    rintro rfl
    have heof := Stream.Terminated.last hs (t := closeAttrs) (htokens.trans
      (append_assoc (opener :: attrs :: body) [close] [closeAttrs]).symm)
    rw [hcloseAttrs] at heof
    cases heof
  obtain ⟨htokens', ⟨own, herrors⟩, -⟩ :=
    run_function htokens hsTags hattrs hbody hclose hcloseAttrs hid hafter
  have hk : s.kind = .tag "F" := (congrArg Token.kind (cons.inj htokens).1).trans hopener
  obtain ⟨hstream, hend, hbehind⟩ := collect_function hs hsTags hk htokens' herrors hn
  obtain ⟨hnone, hopen⟩ := ofTokens_fresh after
  refine ⟨_, own, Prod.ext rfl (hstream.trans ?_), ?_⟩
  · rw [Stream.under, Stream.withOpenTags, hnone]
    rfl
  · -- Both modules are given by the parts that their top levels find.
    rw [hbehind] at htop
    rcases hrest : topLevel.run ((Stream.ofTokens after).withOpenTags ["M"]) with ⟨behind, u⟩
    rw [hrest] at htop hend
    have hwhole := run_moduleContents id name head (s := s₀) (by rw [hstart.2]; exact htop)
    have hpart := run_moduleContents id name head (s := .ofTokens after) (by rw [hopen]; exact hrest)
    rw [moduleBody, run_bind_eq hheader]
    dsimp only
    rw [hwhole, hpart, moduleEnd_under id head _ hend, filterMap_append, filterMap_append]
    rfl

def siblingTokens : List Token :=
  [.tag "F", .attrs ["h", "k"], .closeTag "F", .attrs ["h"], .closeTag "M", .attrs ["m"], .eof].map
    (⟨·, "", .nowhere⟩)

/-- An open loop, an open parenthesis, a closing tag and a clause that belong to nothing, before a
sibling. -/
def garbledTokens : List Token :=
  [.tag "F", .attrs ["f", "g"], .tag "L", .attrs ["l", "i"], .lParen, .closeTag "IF", .attrs ["x"],
    .tag "K", .closeTag "F", .attrs ["f"]].map (⟨·, "", .nowhere⟩) ++ siblingTokens

def garbledModule : List Token := [.tag "M", .attrs ["m", "A"]].map (⟨·, "", .nowhere⟩) ++ garbledTokens

theorem function_isolated_garbled : ∃ f own,
    (function "F").run { Stream.ofTokens garbledTokens with openTags := ["M"] } =
      (f, { Stream.ofTokens siblingTokens with errors := own, openTags := ["M"] }) ∧
    (moduleBody.run (.ofTokens garbledModule)).1.items =
      .function f :: ((moduleContents "m" "A" (Span.nowhere.merge .nowhere)).run
        (.ofTokens siblingTokens)).1.items := by
  have hterminated : (Stream.ofTokens garbledModule).Terminated :=
    ⟨garbledModule.dropLast, Token.eofAt .nowhere, rfl, rfl, fun _ _ => trivial⟩
  have hheader : moduleHeader.run (.ofTokens garbledModule) =
    (("m", "A", Span.nowhere.merge .nowhere), .ofTokens garbledTokens) := rfl
  have htokens : ((Stream.ofTokens garbledTokens).withOpenTags ["M"]).tokens =
    ⟨.tag "F", "", .nowhere⟩ :: ⟨.attrs ["f", "g"], "", .nowhere⟩ :: ((garbledTokens.drop 2).take 6 ++
      ⟨.closeTag "F", "", .nowhere⟩ :: ⟨.attrs ["f"], "", .nowhere⟩ :: siblingTokens) := rfl
  obtain ⟨f, own, hfunction, hmodule⟩ :=
    function_isolated hterminated rfl hheader (.here _) htokens rfl rfl
    (by simp [garbledTokens, Enclosed]) rfl rfl rfl
  refine ⟨f, own, hfunction.trans ?_, congrArg (·.1.items) hmodule⟩
  exact congrArg (fun errors =>
    (f, { Stream.ofTokens siblingTokens with errors, openTags := ["M"] })) (append_nil own)

end TopLevel

end TagLang.Grammar

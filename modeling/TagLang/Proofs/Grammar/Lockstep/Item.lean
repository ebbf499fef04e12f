import TagLang.Proofs.Grammar.Lockstep.Statement

/-! # Items and modules of two runs -/

namespace TagLang.Grammar
open List

def Head.bare (h : Head) : Head where
  params := h.params.map Param.bare
  returnType := h.returnType.map TypeRef.bare
  effects := h.effects.map EffectDecl.bare
  preconditions := h.preconditions.map Expr.bare
  postconditions := h.postconditions.map Expr.bare
  breaking := h.breaking.map BreakingMarker.bare

def ClassMember.bare : ClassMember → ClassMember
  | .field m => .field m.bare
  | .property m => .property m.bare
  | .method f => .method f.bare

def TopLevel.bare : TopLevel → TopLevel
  | .using path => .using path
  | .item i => .item i.bare

def itemTags : List String := ["F", "CL", "IFACE", "EN", "UN", "MT"]

namespace Lockstep

variable {G F : Fallback} {L : Lockstep} {i : Phase} {k : TokenKind} {α : Type}

/-! ## Functions -/

section Functions

theorem stepsAt_effectDecl :
    L.StepsAt (.tag "E") i.before i (L.Like EffectDecl.bare) effectDecl effectDecl := by
  refine (stepsAt_first rfl).bind fun a b hab => steps_takeAttrs.bind fun found found' hfound => ?_
  cases hfound with
  | none => exact steps_pure ⟨rfl, fun he => by rw [hab.2 he]⟩
  | some fields ht =>
    refine steps_pure ⟨?_, fun he => by rw [hab.2 he, ht he]⟩
    simp only [EffectDecl.bare]
    rw [map_codeSpans fun code => (code, Span.nowhere), map_codeSpans fun code => (code, Span.nowhere)]

variable (L) in
def SamePart (f g : Head → Head) : Prop := ∀ h h', L.Like Head.bare h h' → L.Like Head.bare (f h) (g h')

theorem samePart_of {f g : Head → Head}
    (hbare : ∀ h h' : Head, h.bare = h'.bare → (f h).bare = (g h').bare) (hsame : L.Same f g) :
    L.SamePart f g :=
  fun h h' hh => ⟨hbare h h' hh.1, fun he => by rw [hsame he, hh.2 he]⟩

theorem like_foldl_parts {parts parts' : List (Head → Head)}
    (hparts : Forall₂ L.SamePart parts parts') (h h' : Head) (hh : L.Like Head.bare h h') :
    L.Like Head.bare (parts.foldl (fun h part => part h) h) (parts'.foldl (fun h part => part h) h') := by
  induction hparts generalizing h h' with
  | nil => exact hh
  | cons hpart _ ih => exact ih _ _ (hpart h h' hh)

theorem steps_headParts {n : Nat} {r r' : Rules} (hr : L.Follows n r r') (hi : i.bound ≤ n) :
    L.Steps i i (Forall₂ L.SamePart) (headParts r) (@headParts G r') := by
  refine steps_many fun m hm => turns_peek_bind fun s t hn => ?_
  have hm := Nat.le_trans hm hi
  split
  · next hk =>
    refine .inl (stepsAt_param.bind (fun a b hab => ?_) hn hk)
    obtain ⟨rfl, rfl⟩ | ⟨p, q, rfl, rfl, hpq⟩ := like_option hab
    · exact steps_pure .skip
    · refine steps_pure (.found (samePart_of ?_ fun he => by rw [hpq.2 he]))
      simp +contextual [Head.bare, hpq.1]
  · next hk =>
    refine turnsFrom_first hn (hk ▸ rfl) fun a b hab => steps_takeAttrs.bind fun found found' hfound => ?_
    cases hfound with
    | none => exact steps_missing _ _ (hab.2.map _) .skip
    | some fields ht =>
      cases fields with
      | nil => exact steps_missing _ _ (hab.2.map _) .skip
      | cons type fields =>
        refine (steps_typeRef type (ht.map _)).bind fun ty ty' hty => ?_
        refine steps_pure (.found (samePart_of ?_ fun he => by rw [hty.2 he]))
        simp +contextual [Head.bare, hty.1]
  · next hk =>
    refine .inl (stepsAt_effectDecl.bind (fun e e' heff => ?_) hn hk)
    refine steps_pure (.found (samePart_of ?_ fun he => by rw [heff.2 he]))
    simp +contextual [Head.bare, heff.1]
  case h_4 hk | h_5 hk =>
    refine turnsFrom_first hn (hk ▸ rfl) fun _ _ _ => (steps_exprOrError hr ‹_›).bind fun e e' hexpr => ?_
    refine steps_pure (.found (samePart_of ?_ fun he => by rw [hexpr.2 he]))
    simp +contextual [Head.bare, hexpr.1]
  · next hk =>
    refine turnsFrom_first hn (hk ▸ rfl) fun a b hab => steps_takeAttrs.bind fun found found' hfound => ?_
    have hreason : (found.map fun x => ":".intercalate x.1) =
        found'.map fun x => ":".intercalate x.1 := by
      cases hfound <;> rfl
    dsimp only
    rw [hreason]
    refine steps_pure (.found (samePart_of ?_ fun he => by rw [hab.2 he]))
    simp +contextual [Head.bare, BreakingMarker.bare]
  · exact turnsFrom_done hn trivial

theorem stepsAt_announced_bind {α' : Type} {R : α → α' → Prop} {j : Phase} {tag : String}
    {f : Announced → Parser α} {g : Announced → Parser α'} (hmem : tag ∈ namedTags) (hinner : L.inner tag)
    (h : ∀ id name visibility isAsync span span', L.Same span span' →
      L.Steps (i.enter tag id) j R (f ⟨id, name, visibility, isAsync, span⟩)
      (g ⟨id, name, visibility, isAsync, span'⟩)) :
    L.StepsAt (.tag tag) i.before j R (announced tag >>= f) (announced tag >>= g) := by
  refine stepsAt_opening (f := fun x => requiredField x.1 1 tag "name" x.2 >>= fun name =>
      modifiers x.1 tag x.2 >>= fun m => f ⟨x.1.headD "", name, m.1, m.2, x.2⟩)
    (g := fun x => requiredField x.1 1 tag "name" x.2 >>= fun name =>
      modifiers x.1 tag x.2 >>= fun m =>
        g ⟨x.1.headD "", name, m.1, m.2, x.2⟩) (fun fields head head' hhead => ?_) hmem hinner
  refine (steps_requiredField _ _ _ _ hhead).bind fun name _ hname => ?_
  refine (steps_modifiers _ _ hhead).bind fun m _ hm => ?_
  subst hname hm
  exact h _ _ _ _ head head' hhead

theorem steps_currentRules_bind {α' β β' : Type} {R : α → α' → Prop} {S : β → β' → Prop} {j : Phase}
    {f : Rules → Parser α} {g : Rules → Parser α'} {c : α → Parser β} {d : α' → Parser β'}
    (h : ∀ m r r', L.Follows m r r' → L.Steps { i with bound := m } { i with bound := m } R (f r) (g r'))
    (hc : ∀ a b, R a b → L.Steps i j S (c a) (d b)) :
    L.Steps i j S (currentRules >>= fun r => f r >>= c) (@currentRules G >>= fun r => g r >>= d) := by
  intro s t hn
  have hs : currentRules.run s = (rules (s.rest.length + 1), s) := rfl
  have ht : (@currentRules G).run t = (@rules G (s.rest.length + 1), t) := by
    rw [L.length hn.rel]
    rfl
  unfold Runs
  rw [run_bind_eq hs, run_bind_eq ht]
  exact Runs.bind (.loosen hn (h _ _ _ (follows_rules _) hn.tight)) hc

theorem stepsAt_function {tag : String} (hmem : tag ∈ namedTags) (hinner : L.inner tag) :
    L.StepsAt (.tag tag) i.before i (L.Like FunctionDef.bare) (function tag) (@function G tag) := by
  refine stepsAt_announced_bind hmem hinner fun id name visibility isAsync head head' hhead =>
    steps_withOpen ?_
  refine steps_currentRules_bind (fun m r r' hr => steps_headParts hr (Nat.le_refl m))
    fun parts parts' hparts => ?_
  refine steps_currentRules_bind (fun m r r' hr => hr.block (Nat.le_refl m)) fun body body' hbody => ?_
  refine (steps_expectClose hhead hmem hinner).bind fun stop stop' hstop => ?_
  have hh := like_foldl_parts hparts {} {} (.refl _)
  refine steps_pure ⟨?_, fun he => by rw [hh.2 he, hbody.2 he, hhead he, hstop he]⟩
  have hbare := hh.1
  simp only [Head.bare, Head.mk.injEq] at hbare
  simp [FunctionDef.bare, hbare, hbody.1]

end Functions

/-! ## Classes, interfaces and sums -/

section Members

variable {bare : α → α}

theorem steps_members {R : α → α → Prop} {member member' : TokenKind → Option (Parser (Round α))}
    (expected : String)
    (h : ∀ (j : Phase) k, Option.Rel (L.StepsAt k j.before j (Goes R)) (member k) (member' k)) :
    L.Steps i i (Forall₂ R) (members member expected) (@members G _ member' expected) := by
  refine steps_many fun m hm => turns_get_bind fun s t hn => ?_
  rw [← hn.kind]
  simp only [hn.isOpen]
  have hmember := h { i with bound := m } s.kind
  generalize hk : s.kind = k at hmember
  split
  · exact turnsFrom_done hn trivial
  · split
    · exact turnsFrom_done hn trivial
    · next hopen => exact turnsFrom_stray hn hk hopen
  · next heof hclose =>
    generalize member k = p at hmember ⊢
    generalize member' k = q at hmember ⊢
    cases hmember with
    | some hpq => exact .inl (hpq hn hk)
    | none => exact .inl (stepsAt_recover hclose heof _ (steps_pure .skip) hn hk)

theorem stepsAt_memberDef {tag : String} (hk : isLoose (.tag tag) = true) :
    L.StepsAt (.tag tag) i.before i (L.Like (Option.map MemberDef.bare)) (memberDef tag)
      (memberDef tag) := by
  refine (stepsAt_first hk).bind fun a b hab => steps_takeAttrs.bind fun found found' hfound => ?_
  cases hfound with
  | none => exact steps_missing _ _ (hab.2.map _) (.refl _)
  | some fields ht =>
    dsimp only
    split
    · exact steps_missing _ _ (hab.2.map _) (.refl _)
    · refine (steps_typeRef _ (ht.map _)).bind fun ty ty' hty => ?_
      refine steps_pure ⟨?_, fun he => by rw [hty.2 he, hab.2 he, ht he]⟩
      simp [MemberDef.bare, hty.1]

theorem goes_ofOption {a b : Option α} (h : L.Like (Option.map bare) a b) :
    Goes (L.Like bare) (Round.ofOption a) (Round.ofOption b) := by
  obtain ⟨rfl, rfl⟩ | ⟨x, y, rfl, rfl, hxy⟩ := like_option h
  · exact .skip
  · exact .found hxy

theorem like_map_option {β : Type} {bare' : β → β} {f : α → β} (hf : ∀ a, bare' (f a) = f (bare a))
    {a b : Option α} (h : L.Like (Option.map bare) a b) :
    L.Like (Option.map bare') (a.map f) (b.map f) := by
  obtain ⟨rfl, rfl⟩ | ⟨x, y, rfl, rfl, hxy⟩ := like_option h
  · exact .refl _
  · refine ⟨?_, hxy.2.map fun x => some (f x)⟩
    simp [hf, hxy.1]

theorem rel_classMember (hinner : L.inner "MT") (k : TokenKind) :
    Option.Rel (L.StepsAt k i.before i (Goes (L.Like ClassMember.bare))) (classMember k)
      (@classMember G k) := by
  unfold classMember
  split
  · refine .some ((stepsAt_memberDef rfl).bind fun a b hab => steps_pure (goes_ofOption ?_))
    exact like_map_option (f := ClassMember.field) (fun _ => rfl) hab
  · refine .some ((stepsAt_memberDef rfl).bind fun a b hab => steps_pure (goes_ofOption ?_))
    exact like_map_option (f := ClassMember.property) (fun _ => rfl) hab
  · refine .some ((stepsAt_function (by decide) hinner).bind fun a b hab => ?_)
    exact steps_pure (.found ⟨congrArg ClassMember.method hab.1, hab.2.map _⟩)
  · exact .none

theorem rel_interfaceMember (hinner : L.inner "MT") (k : TokenKind) :
    Option.Rel (L.StepsAt k i.before i (Goes (L.Like FunctionDef.bare))) (interfaceMember k)
      (@interfaceMember G k) := by
  unfold interfaceMember
  split
  · exact .some ((stepsAt_function (by decide) hinner).bind fun a b hab => steps_pure (.found hab))
  · exact .none

theorem stepsAt_variantDef :
    L.StepsAt (.tag "V") i.before i (Goes (L.Like VariantDef.bare)) variantDef variantDef := by
  refine (stepsAt_first rfl).bind fun a b hab => steps_takeAttrs.bind fun found found' hfound => ?_
  cases hfound with
  | none => exact steps_missing _ _ (hab.2.map _) .skip
  | @some fields t t' ht =>
    have hfound {ty ty' : Option TypeRef} (hty : L.Like (Option.map TypeRef.bare) ty ty') :
        Goes (L.Like VariantDef.bare) (.found ⟨fields.headD "", ty, a.span.merge t.span⟩)
          (.found ⟨fields.headD "", ty', b.span.merge t'.span⟩) := by
      refine .found ⟨?_, fun he => by rw [hty.2 he, hab.2 he, ht he]⟩
      simp [VariantDef.bare, hty.1]
    dsimp only
    split
    · exact steps_missing _ _ (hab.2.map _) .skip
    · split
      · exact steps_pure (hfound (.refl _))
      · exact Steps.bind ((steps_typeRef _ (ht.map _)).map fun ty ty' => Like.some) fun _ _ hty =>
          steps_pure (hfound hty)

theorem rel_enumMember (k : TokenKind) :
    Option.Rel (L.StepsAt k i.before i (Goes (L.Like VariantDef.bare))) (enumMember k)
      (enumMember k) := by
  unfold enumMember
  split
  · exact .some ((stepsAt_first rfl).bind fun _ _ _ => steps_pure .skip)
  · refine .some ((stepsAt_first rfl).bind fun a b hab => steps_pure (.found ⟨rfl, fun he => ?_⟩))
    rw [hab.2 he]
  · exact .some stepsAt_variantDef
  · exact .none

theorem rel_unionMember (k : TokenKind) :
    Option.Rel (L.StepsAt k i.before i (Goes (L.Like VariantDef.bare))) (unionMember k)
      (unionMember k) := by
  unfold unionMember
  split
  · exact .some stepsAt_variantDef
  · exact .none

theorem like_filterMap {β : Type} {bare' : β → β} {f : α → Option β}
    (hf : ∀ a, (f a).map bare' = f (bare a)) {l l' : List α} (h : L.Like (map bare) l l') :
    L.Like (map bare') (l.filterMap f) (l'.filterMap f) := by
  have hmap (l : List α) : (l.filterMap f).map bare' = (l.map bare).filterMap f := by
    rw [map_filterMap, filterMap_map]
    exact congrArg (filterMap · l) (funext hf)
  refine ⟨?_, h.2.map _⟩
  rw [hmap, h.1, hmap]

theorem stepsAt_sumDef {tag construct expected : String}
    {member : TokenKind → Option (Parser (Round VariantDef))}
    (hmem : tag ∈ namedTags) (hinner : L.inner tag)
    (hmember : ∀ (j : Phase) k, Option.Rel (L.StepsAt k j.before j (Goes (L.Like VariantDef.bare)))
      (member k) (member k)) :
    L.StepsAt (.tag tag) i.before i (L.Like SumDef.bare) (sumDef tag construct expected member)
      (@sumDef G tag construct expected member) := by
  refine stepsAt_announced_bind hmem hinner fun id name visibility isAsync head head' hhead => ?_
  refine steps_withOpen ?_
  refine (steps_members _ hmember).bind fun vs vs' hvs => ?_
  refine (steps_expectClose hhead hmem hinner).bind fun stop stop' hstop => ?_
  have hlist := like_list hvs
  refine steps_pure ⟨?_, fun he => by rw [hlist.2 he, hhead he, hstop he]⟩
  simp [SumDef.bare, hlist.1]

end Members

section Items

variable (hinner : ∀ tag ∈ itemTags, L.inner tag)
include hinner

theorem stepsAt_classDef :
    L.StepsAt (.tag "CL") i.before i (L.Like ClassDef.bare) classDef (@classDef G) := by
  refine stepsAt_announced_bind (by decide) (hinner _ (by decide))
    fun id name visibility isAsync head head' hhead => ?_
  refine steps_withOpen ?_
  refine (steps_members _ fun _ => rel_classMember (hinner _ (by decide))).bind fun ms ms' hms => ?_
  refine (steps_expectClose hhead (by decide) (hinner _ (by decide))).bind fun stop stop' hstop => ?_
  have hlist := like_list hms
  refine steps_pure ⟨?_, fun he => by rw [hlist.2 he, hhead he, hstop he]⟩
  simp only [ClassDef.bare, ClassDef.mk.injEq, true_and, and_true]
  refine ⟨(like_filterMap ?_ hlist).1, (like_filterMap ?_ hlist).1, (like_filterMap ?_ hlist).1⟩
  all_goals exact fun a => by cases a <;> rfl

theorem stepsAt_interfaceDef :
    L.StepsAt (.tag "IFACE") i.before i (L.Like InterfaceDef.bare) interfaceDef (@interfaceDef G) := by
  refine stepsAt_announced_bind (by decide) (hinner _ (by decide))
    fun id name visibility isAsync head head' hhead => ?_
  refine steps_withOpen ?_
  refine (steps_members _ fun _ => rel_interfaceMember (hinner _ (by decide))).bind fun ms ms' hms => ?_
  refine (steps_expectClose hhead (by decide) (hinner _ (by decide))).bind fun stop stop' hstop => ?_
  have hlist := like_list hms
  refine steps_pure ⟨?_, fun he => by rw [hlist.2 he, hhead he, hstop he]⟩
  simp [InterfaceDef.bare, hlist.1]

/-! ## Modules -/

def TopLevelEnds (s : Stream) : Prop := s.kind = .eof ∨ s.kind = .closeTag "M"

theorem turns_topLevelRound (htags : ∀ name, name ≠ "M" → name ∉ i.tags) :
    L.Turns TopLevelEnds i (L.Like TopLevel.bare) topLevelRound (@topLevelRound G) := by
  have hitem {β : Type} {s t : Stream} {k : TokenKind} {p q : Parser β} (bare : β → β)
      (hp : L.StepsAt k i.before i (L.Like bare) p q) (f : β → Item) (hf : ∀ a, (f a).bare = f (bare a))
      (hn : L.Near i.before s t) (hk : s.kind = k) :
      L.TurnsFrom TopLevelEnds s t i (L.Like TopLevel.bare) (p >>= fun a => pure (.found (.item (f a))))
        (q >>= fun a => pure (.found (.item (f a)))) := by
    refine .inl (hp.bind
      (fun a b hab => steps_pure (.found ⟨?_, hab.2.map fun a => TopLevel.item (f a)⟩)) hn hk)
    simp [TopLevel.bare, hf, hab.1]
  refine turns_peek_bind fun s t hn => ?_
  generalize hk : s.kind = k
  split
  · exact turnsFrom_done hn (.inl hk)
  · exact turnsFrom_done hn (.inr hk)
  · next name hname =>
    exact .inl ((stepsAt_skipStrayClose (htags _ hname)).bind (fun _ _ _ => steps_pure .skip) hn hk)
  · refine .inl (StepsAt.bind (stepsAt_first rfl)
      (fun a b hab => steps_takeAttrs.bind fun found found' hfound => ?_) hn hk)
    cases hfound with
    | none => exact steps_missing _ _ (hab.2.map _) .skip
    | some fields =>
      cases fields with
      | nil => exact steps_missing _ _ (hab.2.map _) .skip
      | cons field fields => exact steps_pure (.found (.refl _))
  · exact hitem _ (stepsAt_function (by decide) (hinner _ (by decide))) .function (fun _ => rfl) hn hk
  · exact hitem _ (stepsAt_classDef hinner) .classDef (fun _ => rfl) hn hk
  · exact hitem _ (stepsAt_interfaceDef hinner) .interface (fun _ => rfl) hn hk
  · exact hitem _ (stepsAt_sumDef (by decide) (hinner _ (by decide)) fun _ => rel_enumMember) .enumeration
      (fun _ => rfl) hn hk
  · exact hitem _ (stepsAt_sumDef (by decide) (hinner _ (by decide)) fun _ => rel_unionMember) .union
      (fun _ => rfl) hn hk
  · exact .inl (stepsAt_recover (by simp) (by simp) _ (steps_pure .skip) hn hk)
  · next heof _ hclose _ _ _ _ _ _ _ =>
    exact .inl (stepsAt_recover hclose heof _ (steps_pure .skip) hn hk)

theorem runs_topLevel (htags : ∀ name, name ≠ "M" → name ∉ i.tags) {s t : Stream}
    (hn : L.Near i s t) :
    L.Runs s t i (L.Like (map TopLevel.bare)) topLevel (@topLevel G) ∧ TopLevelEnds (topLevel.run s).2 :=
  (turns_many (fun _ _ => turns_topLevelRound hinner htags) hn).imp_left fun h => ⟨like_list h.1, h.2⟩

theorem steps_moduleContents (hmodule : L.inner "M") (htags : i.tags = []) (id name : String)
    {head head' : Span} (hhead : L.Same head head') :
    L.Steps (i.enter "M" id) i (L.Like Module.bare) (moduleContents id name head)
      (@moduleContents G id name head') := by
  refine Steps.bind (R := L.Like Module.bare) (steps_withOpen ?_) fun m m' hm => ?_
  · have htop : L.Steps ((i.push "M").enter "M" id) ((i.push "M").enter "M" id)
        (L.Like (map TopLevel.bare)) topLevel (@topLevel G) := by
      intro s t hn
      refine (runs_topLevel hinner (fun name hname hmem => ?_) hn).1
      have hmem' : name ∈ "M" :: i.tags := hmem
      rw [htags] at hmem'
      exact hname (mem_singleton.mp hmem')
    refine htop.bind fun parts parts' hparts => ?_
    refine (steps_expectClose hhead (by decide) hmodule).bind fun stop stop' hstop => ?_
    refine steps_pure ⟨?_, fun he => by rw [hparts.2 he, hhead he, hstop he]⟩
    simp only [Module.bare, Module.mk.injEq, true_and, and_true]
    refine ⟨(map_id _).symm.trans ((like_filterMap ?_ hparts).1.trans (map_id _)),
      (like_filterMap ?_ hparts).1⟩
    all_goals exact fun a => by cases a <;> rfl
  · refine steps_peek_bind fun k => ?_
    split
    · exact ((steps_reportUnexpected _).bind fun _ _ _ => steps_pure hm).at
    · exact stepsAt_pure hm

omit hinner in
theorem stepsAt_moduleHeader_bind {α' : Type} {R : α → α' → Prop} {j : Phase}
    {f : String × String × Span → Parser α}
    {g : String × String × Span → Parser α'} (hmodule : L.inner "M")
    (h : ∀ id name head head', L.Same head head' → L.Steps (i.enter "M" id) j R (f (id, name, head))
      (g (id, name, head'))) :
    L.StepsAt (.tag "M") i.before j R (moduleHeader >>= f) (moduleHeader >>= g) := by
  refine stepsAt_opening
    (f := fun x => requiredField x.1 1 "M" "name" x.2 >>= fun name => f (x.1.headD "", name, x.2))
    (g := fun x => requiredField x.1 1 "M" "name" x.2 >>= fun name => g (x.1.headD "", name, x.2))
    (fun fields head head' hhead => ?_) (by decide) hmodule
  refine (steps_requiredField _ _ _ _ hhead).bind fun name _ hname => ?_
  subst hname
  exact h _ _ _ _ hhead

theorem stepsAt_moduleBody (hmodule : L.inner "M") (htags : i.tags = []) :
    L.StepsAt (.tag "M") i.before i (L.Like Module.bare) moduleBody (@moduleBody G) :=
  stepsAt_moduleHeader_bind hmodule fun id name _ _ hhead =>
    steps_moduleContents hinner hmodule htags id name hhead

end Items

end Lockstep

end TagLang.Grammar

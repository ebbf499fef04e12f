import TagLang.Proofs.Binding.Trace

/-! # Regions of a tree

Which names of a tree become which symbols of the bound tree, and in which regions. A function, the
postconditions of a function, a class, a block, a loop, a match arm, a catch clause, a lambda and a
quantifier are a region each.
-/

namespace TagLang

def Bound.Callee.symbol? : Bound.Callee → Option SymbolId
  | .function symbol _ => some symbol
  | .value symbol => some symbol
  | _ => none

def Item.name : Item → String
  | .function f => f.name
  | .classDef c => c.name
  | .interface i => i.name
  | .enumeration d => d.name
  | .union d => d.name

namespace Binding

section Relations

variable {α β : Type}

inductive ListTrace (R : α → β → Trace → Prop) : List α → List β → Trace → Prop
  | nil : ListTrace R [] [] []
  | cons {a : α} {b : β} {as : List α} {bs : List β} {tr rest : Trace} (h : R a b tr)
    (hrest : ListTrace R as bs rest) : ListTrace R (a :: as) (b :: bs) (tr ++ rest)

inductive OptionTrace (R : α → β → Trace → Prop) : Option α → Option β → Trace → Prop
  | none : OptionTrace R none none []
  | some {a : α} {b : β} {tr : Trace} (h : R a b tr) : OptionTrace R (some a) (some b) tr

end Relations

/-- A bare name is a variable, unless it is a variant. -/
inductive PatternTrace : Pattern → Bound.Pattern → Trace → Prop
  | wildcard {s : Span} : PatternTrace (.wildcard s) (.wildcard s) []
  | literal {v : Literal} {s : Span} : PatternTrace (.literal v s) (.literal v s) []
  | noneOf {s : Span} : PatternTrace (.noneOf s) (.noneOf s) []
  | binding {x : String} {id : SymbolId} {s : Span} :
    PatternTrace (.binding x s) (.binding id s) [.declare x id]
  | bare {x owner : String} {s : Span} : PatternTrace (.binding x s) (.variant (some owner) x [] s) []
  | someOf {p : Pattern} {b : Bound.Pattern} {s : Span} {tr : Trace} (h : PatternTrace p b tr) :
    PatternTrace (.someOf p s) (.someOf b s) tr
  | okOf {p : Pattern} {b : Bound.Pattern} {s : Span} {tr : Trace} (h : PatternTrace p b tr) :
    PatternTrace (.okOf p s) (.okOf b s) tr
  | errOf {p : Pattern} {b : Bound.Pattern} {s : Span} {tr : Trace} (h : PatternTrace p b tr) :
    PatternTrace (.errOf p s) (.errOf b s) tr
  | variant {written owner : Option String} {x : String} {ps : List Pattern}
    {bs : List Bound.Pattern} {s : Span} {tr : Trace} (h : ListTrace PatternTrace ps bs tr) :
    PatternTrace (.variant written x ps s) (.variant owner x bs s) tr

inductive PathFrom (id : SymbolId) : List String → Bound.Expr → Prop
  | var {ty : Ty} {s : Span} : PathFrom id [] (.mk (.var id) ty s)
  | field {names : List String} {b : Bound.Expr} {x : String} {ty : Ty} {s : Span}
    (h : PathFrom id names b) : PathFrom id (names ++ [x]) (.mk (.field b x) ty s)

/-- The name of a callee without dots, or the first name of a receiver, is used. A callee with a
symbol is what its name means. -/
inductive CalleeTrace (target : String) : Bound.Callee → Option Bound.Expr → Trace → Prop
  | free {callee : Bound.Callee} {found : Option SymbolId} (hcut : Text.cutLast? '.' target = none)
    (hfound : ∀ id, callee.symbol? = some id → found = some id) :
    CalleeTrace target callee none [used target found]
  | member {receiver name : String} {callee : Bound.Callee} {id : SymbolId} {value : Bound.Expr}
      (hcut : Text.cutLast? '.' target = some (receiver, name))
      (hpath : PathFrom id ((Text.split '.' receiver).drop 1) value) (hcallee : callee.symbol? = none) :
      CalleeTrace target callee (some value) [.refer ((Text.split '.' receiver).headD receiver) id]
  | static {receiver name : String} {callee : Bound.Callee}
    (hcut : Text.cutLast? '.' target = some (receiver, name)) (hcallee : callee.symbol? = none) :
    CalleeTrace target callee none [.missing ((Text.split '.' receiver).headD receiver)]

mutual

inductive ExprTrace : Expr → Bound.Expr → Trace → Prop
  | int {n : Int} {ty : Ty} {s : Span} : ExprTrace (.int n s) (.mk (.int n) ty s) []
  | float {f : Binary64} {ty : Ty} {s : Span} : ExprTrace (.float f s) (.mk (.float f) ty s) []
  | str {t : String} {ty : Ty} {s : Span} : ExprTrace (.str t s) (.mk (.str t) ty s) []
  | bool {b : Bool} {ty : Ty} {s : Span} : ExprTrace (.bool b s) (.mk (.bool b) ty s) []
  | null {ty : Ty} {s : Span} : ExprTrace (.null s) (.mk .null ty s) []
  | noneOf {ty : Ty} {s : Span} : ExprTrace (.noneOf s) (.mk .noneOf ty s) []
  | error {ty : Ty} {s : Span} : ExprTrace (.error s) (.mk .error ty s) []
  | found {x : String} {id : SymbolId} {ty : Ty} {s : Span} :
    ExprTrace (.ident x s) (.mk (.var id) ty s) [.refer x id]
  | variant {x owner : String} {ty : Ty} {s : Span} :
    ExprTrace (.ident x s) (.mk (.variant owner x) ty s) [.missing x]
  | undefined {x : String} {id : SymbolId} {ty : Ty} {s : Span} :
    ExprTrace (.ident x s) (.mk (.var id) ty s) [.missing x, .undefined x id s]
  | field {base : Expr} {b : Bound.Expr} {x : String} {ty : Ty} {s : Span} {tr : Trace}
    (h : ExprTrace base b tr) : ExprTrace (.field base x s) (.mk (.field b x) ty s) tr
  | fieldOfVariant {base : Expr} {b : Bound.Expr} {root x : String} {ty : Ty} {s : Span}
    {tr : Trace} (hroot : base.root? = some root) (h : ExprTrace base b tr) :
    ExprTrace (.field base x s) (.mk (.field b x) ty s) (.missing root :: tr)
  | fieldVariant {base : Expr} {root path x : String} {ty : Ty} {s : Span}
    (hroot : base.root? = some root) (hpath : base.path? = some path) :
    ExprTrace (.field base x s) (.mk (.variant path x) ty s) [.missing root]
  | fieldStatic {base : Expr} {root path x : String} {ty : Ty} {s : Span}
    (hroot : base.root? = some root) (hpath : base.path? = some path) :
    ExprTrace (.field base x s) (.mk (.static s!"{path}.{x}") ty s) [.missing root]
  | fieldUndefined {base : Expr} {root path x : String} {id : SymbolId} {ty : Ty} {s : Span}
    (hroot : base.root? = some root) (hpath : base.path? = some path) :
    ExprTrace (.field base x s) (.mk (.var id) ty s) [.missing root, .undefined s!"{path}.{x}" id s]
  | index {base place : Expr} {b p : Bound.Expr} {ty : Ty} {s : Span} {tr tr' : Trace}
    (hbase : ExprTrace base b tr) (hplace : ExprTrace place p tr') :
    ExprTrace (.index base place s) (.mk (.index b p) ty s) (tr ++ tr')
  | binary {left right : Expr} {op : BinOp} {l r : Bound.Expr} {ty : Ty} {s : Span} {tr tr' : Trace}
    (hleft : ExprTrace left l tr) (hright : ExprTrace right r tr') :
    ExprTrace (.binary left op right s) (.mk (.binary l op r) ty s) (tr ++ tr')
  | unary {op : UnaryOp} {operand : Expr} {b : Bound.Expr} {ty : Ty} {s : Span} {tr : Trace}
    (h : ExprTrace operand b tr) : ExprTrace (.unary op operand s) (.mk (.unary op b) ty s) tr
  | conditional {test yes no : Expr} {t y n : Bound.Expr} {ty : Ty} {s : Span} {tr tr' tr'' : Trace}
    (htest : ExprTrace test t tr) (hyes : ExprTrace yes y tr') (hno : ExprTrace no n tr'') :
    ExprTrace (.conditional test yes no s) (.mk (.conditional t y n) ty s) (tr ++ (tr' ++ tr''))
  | call {target : String} {args : List Expr} {bs : List Bound.Expr} {callee : Bound.Callee}
    {receiver : Option Bound.Expr} {ty : Ty} {s : Span} {tr tr' : Trace}
    (hargs : ListTrace ExprTrace args bs tr) (hcallee : CalleeTrace target callee receiver tr') :
    ExprTrace (.call target args s) (.mk (.call target callee receiver bs) ty s) (tr ++ tr')
  | create {written : TypeRef} {args : List Expr} {bs : List Bound.Expr} {className : Option String}
    {ty : Ty} {s : Span} {tr : Trace} (hargs : ListTrace ExprTrace args bs tr) :
    ExprTrace (.create written args s) (.mk (.create written.ty className bs) ty s) tr
  | someOf {value : Expr} {b : Bound.Expr} {ty : Ty} {s : Span} {tr : Trace}
    (h : ExprTrace value b tr) : ExprTrace (.someOf value s) (.mk (.someOf b) ty s) tr
  | okOf {value : Expr} {b : Bound.Expr} {ty : Ty} {s : Span} {tr : Trace}
    (h : ExprTrace value b tr) : ExprTrace (.okOf value s) (.mk (.okOf b) ty s) tr
  | errOf {value : Expr} {b : Bound.Expr} {ty : Ty} {s : Span} {tr : Trace}
    (h : ExprTrace value b tr) : ExprTrace (.errOf value s) (.mk (.errOf b) ty s) tr
  | await {value : Expr} {b : Bound.Expr} {ty : Ty} {s : Span} {tr : Trace}
    (h : ExprTrace value b tr) : ExprTrace (.await value s) (.mk (.await b) ty s) tr
  | lambda {id : String} {ps : List Param} {ids : List SymbolId} {body : List Stmt}
    {bs : List Bound.Stmt} {ty : Ty} {s : Span} {tr tr' : Trace}
    (hparams : ListTrace Declares (ps.map (·.name)) ids tr) (hbody : StmtsTrace body bs tr') :
    ExprTrace (.lambda id ps body s) (.mk (.lambda ids bs) ty s) (region (tr ++ tr'))
  | matching {m : Match} {b : Bound.Match} {ty : Ty} {s : Span} {tr : Trace} (h : MatchTrace m b tr) :
      ExprTrace (.matching m) (.mk (.matching b) ty s) tr
  | quantifier {kind : QuantifierKind} {vars : List (String × TypeRef)} {ids : List SymbolId}
      {body : Expr}
      {b : Bound.Expr} {ty : Ty} {s : Span} {tr tr' : Trace}
        (hvars : ListTrace Declares (vars.map (·.1)) ids tr)
      (hbody : ExprTrace body b tr') :
      ExprTrace (.quantifier kind vars body s) (.mk (.quantifier kind ids b) ty s) (region (tr ++ tr'))

inductive MatchTrace : Match → Bound.Match → Trace → Prop
  | mk {id : String} {target : Expr} {b : Bound.Expr} {arms : List Arm} {bs : List Bound.Arm}
    {isExpression : Bool} {s : Span} {tr tr' : Trace} (htarget : ExprTrace target b tr)
    (harms : ListTrace ArmTrace arms bs tr') :
    MatchTrace (.mk id target arms isExpression s) (.mk id b bs isExpression s) (tr ++ tr')

inductive ArmTrace : Arm → Bound.Arm → Trace → Prop
  | mk {p : Pattern} {q : Bound.Pattern} {guard : Option Expr} {g : Option Bound.Expr}
    {body : ArmBody} {b : Bound.ArmBody} {s : Span} {tr tr' tr'' : Trace}
    (hpattern : PatternTrace p q tr) (hguard : OptionTrace ExprTrace guard g tr')
    (hbody : ArmBodyTrace body b tr'') :
    ArmTrace (.mk p guard body s) (.mk q g b s) (region (tr ++ (tr' ++ tr'')))

inductive ArmBodyTrace : ArmBody → Bound.ArmBody → Trace → Prop
  | block {body : List Stmt} {bs : List Bound.Stmt} {tr : Trace} (h : StmtsTrace body bs tr) :
    ArmBodyTrace (.block body) (.block bs) tr
  | value {value : Expr} {b : Bound.Expr} {tr : Trace} (h : ExprTrace value b tr) :
    ArmBodyTrace (.value value) (.value b) tr

/-- An erroneous statement is left out. A declared name has its meaning after the value that it
gets. -/
inductive StmtTrace : Stmt → Option Bound.Stmt → Trace → Prop
  | bind {x : String} {isMutable : Bool} {written : Option TypeRef} {value : Expr} {b : Bound.Expr}
    {id : SymbolId} {s : Span} {tr : Trace} (h : ExprTrace value b tr) :
    StmtTrace (.bind x isMutable written value s) (some (.bind id b s)) (tr ++ [.declare x id])
  | assign {target value : Expr} {t b : Bound.Expr} {s : Span} {tr tr' : Trace}
    (htarget : ExprTrace target t tr) (hvalue : ExprTrace value b tr') :
    StmtTrace (.assign target value s) (some (.assign t b s)) (tr ++ tr')
  | branch {id : String} {test : Expr} {t : Bound.Expr} {body : List Stmt} {bs : List Bound.Stmt}
      {others : List ElseIf} {os : List Bound.ElseIf} {otherwise : Option (List Stmt)}
      {o : Option (List Bound.Stmt)} {s : Span} {tr tr' tr'' last : Trace} (htest : ExprTrace test t tr)
      (hbody : BlockTrace body bs tr') (hothers : ListTrace ElseIfTrace others os tr'')
      (hotherwise : OptionTrace BlockTrace otherwise o last) :
      StmtTrace (.branch id test body others otherwise s) (some (.branch t bs os o s))
        (tr ++ (tr' ++ (tr'' ++ last)))
  | count {id x : String} {start stop : Expr} {step : Option Expr} {b e : Bound.Expr}
      {p : Option Bound.Expr}
      {var : SymbolId} {body : List Stmt} {bs : List Bound.Stmt} {s : Span} {tr tr' tr'' last : Trace}
      (hstart : ExprTrace start b tr) (hstop : ExprTrace stop e tr')
        (hstep : OptionTrace ExprTrace step p tr'')
      (hbody : StmtsTrace body bs last) :
      StmtTrace (.count id x start stop step body s) (some (.count var b e p bs s))
        (tr ++ (tr' ++ (tr'' ++ region (.declare x var :: last))))
  | each {id x : String} {source : Expr} {b : Bound.Expr} {var : SymbolId} {body : List Stmt}
      {bs : List Bound.Stmt}
      {s : Span} {tr tr' : Trace} (hsource : ExprTrace source b tr) (hbody : StmtsTrace body bs tr') :
      StmtTrace (.each id x source body s) (some (.each var b bs s))
        (tr ++ region (.declare x var :: tr'))
  | loop {id : String} {test : Expr} {t : Bound.Expr} {body : List Stmt} {bs : List Bound.Stmt}
    {s : Span} {tr tr' : Trace} (htest : ExprTrace test t tr) (hbody : BlockTrace body bs tr') :
    StmtTrace (.loop id test body s) (some (.loop t bs s)) (tr ++ tr')
  | matching {m : Match} {b : Bound.Match} {tr : Trace} (h : MatchTrace m b tr) :
    StmtTrace (.matching m) (some (.matching b)) tr
  | attempt {id : String} {body : List Stmt} {bs : List Bound.Stmt} {clauses : List Catch}
    {cs : List Bound.Catch} {finish : Option (List Stmt)} {f : Option (List Bound.Stmt)} {s : Span}
    {tr tr' tr'' : Trace} (hbody : BlockTrace body bs tr)
    (hclauses : ListTrace CatchTrace clauses cs tr')
    (hfinish : OptionTrace BlockTrace finish f tr'') :
    StmtTrace (.attempt id body clauses finish s) (some (.attempt bs cs f s)) (tr ++ (tr' ++ tr''))
  | ret {value : Option Expr} {b : Option Bound.Expr} {s : Span} {tr : Trace}
    (h : OptionTrace ExprTrace value b tr) : StmtTrace (.ret value s) (some (.ret b s)) tr
  | raise {value : Expr} {b : Bound.Expr} {s : Span} {tr : Trace} (h : ExprTrace value b tr) :
    StmtTrace (.raise value s) (some (.raise b s)) tr
  | call {target : String} {args : List Expr} {b : Bound.Expr} {s : Span} {tr : Trace}
    (h : ExprTrace (.call target args s) b tr) :
    StmtTrace (.call target args s) (some (.call b s)) tr
  | error {s : Span} : StmtTrace (.error s) none []

inductive StmtsTrace : List Stmt → List Bound.Stmt → Trace → Prop
  | nil : StmtsTrace [] [] []
  | cons {first : Stmt} {b : Option Bound.Stmt} {body : List Stmt} {bs : List Bound.Stmt}
    {tr rest : Trace} (h : StmtTrace first b tr) (hrest : StmtsTrace body bs rest) :
    StmtsTrace (first :: body) (b.toList ++ bs) (tr ++ rest)

inductive BlockTrace : List Stmt → List Bound.Stmt → Trace → Prop
  | mk {body : List Stmt} {bs : List Bound.Stmt} {tr : Trace} (h : StmtsTrace body bs tr) :
    BlockTrace body bs (region tr)

inductive ElseIfTrace : ElseIf → Bound.ElseIf → Trace → Prop
  | mk {test : Expr} {t : Bound.Expr} {body : List Stmt} {bs : List Bound.Stmt} {s : Span}
    {tr tr' : Trace} (htest : ExprTrace test t tr) (hbody : BlockTrace body bs tr') :
    ElseIfTrace (.mk test body s) (.mk t bs) (tr ++ tr')

inductive CatchTrace : Catch → Bound.Catch → Trace → Prop
  | mk {written : Option TypeRef} {x : Option String} {var : Option SymbolId} {body : List Stmt}
    {bs : List Bound.Stmt} {s : Span} {tr tr' : Trace} (hvar : OptionTrace Declares x var tr)
    (hbody : StmtsTrace body bs tr') :
    CatchTrace (.mk written x body s) (.mk (written.map (·.ty)) var bs) (region (tr ++ tr'))

end

/-- The postconditions of a function are in a region of their own, where the returned value has a
name. -/
inductive FunctionTrace (f : FunctionDef) (g : Bound.Function) : Trace → Prop
  | mk {tr tr' tr'' last : Trace} (hparams : ListTrace Declares (f.params.map (·.name)) g.params tr)
      (hbefore : ListTrace ExprTrace f.preconditions g.preconditions tr')
      (hafter : ListTrace ExprTrace f.postconditions g.postconditions tr'')
      (hbody : StmtsTrace f.body g.body last) :
      FunctionTrace f g (region
        (tr ++ (tr' ++ (region (g.result.toList.map (.declare "result") ++ tr'') ++ last))))

/-- The methods of a class are in a region with the object and its members. -/
inductive ClassTrace (c : ClassDef) (gs : List Bound.Function) : Trace → Prop
  | mk {this : SymbolId} {members : List SymbolId} {tr tr' : Trace}
    (hmembers : ListTrace Declares (c.members.map (·.name)) members tr)
    (hmethods : ListTrace FunctionTrace c.methods gs tr') :
    ClassTrace c gs (region (.declare "this" this :: (tr ++ tr')))

/-- All items of a module are declared before any function is bound. -/
inductive ModuleTrace (m : Module) (gs : List Bound.Function) : Trace → Prop
  | mk {ids : List SymbolId} {free : List Bound.Function} {methods : List (List Bound.Function)}
    {tr tr' tr'' : Trace} (hitems : ListTrace Declares (m.items.map Item.name) ids tr)
    (hfree : ListTrace FunctionTrace m.functions free tr')
    (hmethods : ListTrace ClassTrace m.classes methods tr'') (hgs : gs = free ++ methods.flatten) :
    ModuleTrace m gs (tr ++ (tr' ++ tr''))

end Binding

end TagLang

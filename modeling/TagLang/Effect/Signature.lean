import TagLang.Text.Split
import TagLang.Text.Word
import TagLang.Ty

/-! # Signatures of the runtime library

`Namespace.Type::Method(Arg,Arg)` names one overload of a method, `Namespace.Type::Method(*)` all of
them, and `.ctor` is the method that creates an object.
-/

namespace TagLang.Signature

def isName : List Char → Bool
  | [] => false
  | c :: cs => (c.isAlpha || c = '_') && cs.all Text.isWordChar

def isOwner (cs : List Char) : Bool := (Text.splitChars '.' cs).all isName

def isMethod (cs : List Char) : Bool := cs = ".ctor".toList || isName cs

def isArgChar (c : Char) : Bool := Text.isWordChar c || ".[]?<>\x60, ".toList.contains c

def isArgs (cs : List Char) : Bool := cs = ['*'] || cs.all isArgChar

def isValid (s : String) : Bool :=
  match s.toList.span (· ≠ ':') with
  | (owner, ':' :: ':' :: rest) =>
    match rest.span (· ≠ '(') with
    | (method, _ :: args) =>
      isOwner owner && isMethod method && args.getLast? = some ')' && isArgs args.dropLast
    | _ => false
  | _ => false

def shortNames : List (String × String) := [
  ("Console", "System.Console"),
  ("File", "System.IO.File"),
  ("Directory", "System.IO.Directory"),
  ("Path", "System.IO.Path"),
  ("StreamReader", "System.IO.StreamReader"),
  ("StreamWriter", "System.IO.StreamWriter"),
  ("Math", "System.Math"),
  ("Convert", "System.Convert"),
  ("Environment", "System.Environment"),
  ("Process", "System.Diagnostics.Process"),
  ("Random", "System.Random"),
  ("DateTime", "System.DateTime"),
  ("Guid", "System.Guid"),
  ("HttpClient", "System.Net.Http.HttpClient"),
  ("List", "System.Collections.Generic.List"),
  ("Dictionary", "System.Collections.Generic.Dictionary"),
  ("HashSet", "System.Collections.Generic.HashSet"),
  ("StringBuilder", "System.Text.StringBuilder"),
  ("Thread", "System.Threading.Thread"),
  ("Task", "System.Threading.Tasks.Task"),
  ("String", "System.String"),
  ("Int32", "System.Int32"),
  ("Exception", "System.Exception")]

def fullName (receiver : String) : String := (shortNames.lookup receiver).getD receiver

def ofCall (receiver method : String) (args : List Ty) : String :=
  fullName receiver ++ "::" ++ method ++ "(" ++ ",".intercalate (args.map (·.targetName)) ++ ")"

def ofCreation (ty : Ty) : String := fullName ty.receiverName ++ "::.ctor(*)"

def anyOverload? (signature : String) : Option String :=
  (Text.cutFirst? '(' signature).map fun (head, _) => head ++ "(*)"

end TagLang.Signature

import LispSyntax.Registry

/-! # Core registry

The names of the language core, used where no other registry is given.
-/

namespace LispSyntax

namespace Registry

def coreSymbols : List String :=
  ["*address*", "*balance*", "*caller*", "*depth*", "*holdings*", "*initial-expander*", "*juice*",
    "*key*", "*lang*", "*memory*", "*offer*", "*origin*", "*registry*", "*result*", "*scope*",
    "*sequence*", "*state*", "*timestamp*"]

def coreFunctions : List String :=
  ["*", "+", "-", "/", "<", "<=", "=", "==", ">", ">=", "abs", "accept", "account", "and",
    "apply", "assert", "assoc", "assoc-in", "balance", "blob", "blob-map", "boolean", "byte",
    "call", "char", "coll?", "compile", "concat", "conj", "cons", "contains-key?", "count",
    "create-account", "dec", "deploy", "difference", "disj", "dissoc", "do", "double", "empty",
    "empty?", "encoding", "eval", "eval-as", "exp", "expand", "fail", "first", "floor", "get",
    "get-holding", "get-in", "halt", "hash", "hash-map", "hash-set", "identity", "if", "inc",
    "intersection", "into", "keys", "keyword", "last", "list", "log", "long", "map", "mapv",
    "max", "merge", "min", "mod", "name", "next", "nil?", "not", "nth", "or", "pow", "query",
    "quot", "recur", "reduce", "reduced", "rem", "return", "reverse", "rollback", "schedule",
    "second", "set", "set!", "set-holding", "set-key", "signum", "sqrt", "stake", "str",
    "subset?", "symbol", "transfer", "transfer-memory", "union", "unsyntax", "values", "vec",
    "vector", "when", "when-not"]

def core : Registry :=
  match ofNames (coreSymbols.map String.toList) (coreFunctions.map String.toList) with
  | .ok r => r
  | .error _ => empty

end Registry

end LispSyntax

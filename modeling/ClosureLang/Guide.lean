/-! The guide to the language. -/
namespace ClosureLang

/-- The lines of the guide. -/
def guideLines : List String :=
  ["# tinylang language guide",
    "",
    "tinylang is a small imperative language with integers, first-class",
    "closures and lexical scoping.",
    "",
    "## Programs",
    "",
    "A program is a sequence of statements.  Whitespace is insignificant and",
    "`#` starts a comment that runs to the end of the line.",
    "",
    "```",
    "# print the first ten squares",
    "var i = 1;",
    "while (i <= 10) \x7b",
    "    print i * i;",
    "    i = i + 1;",
    "\x7d",
    "```",
    "",
    "## Statements",
    "",
    "| Statement | Meaning |",
    "|---|---|",
    "| `var x = e;` | declare `x` in the current block |",
    "| `int x = e;` / `func f = e;` | declare with a type tag (informational) |",
    "| `x = e;` | assign to the nearest enclosing `x` |",
    "| `print e;` | print the value of `e` on its own line (`closure` for functions) |",
    "| `if (c) \x7b ... \x7d` | run the block when `c` is truthy |",
    "| `if (c) \x7b ... \x7d else \x7b ... \x7d` | choose a block |",
    "| `while (c) \x7b ... \x7d` | repeat the block while `c` is truthy |",
    "| `ret e;` | return `e` from the enclosing function |",
    "| `e;` | evaluate `e` and discard the value |",
    "",
    "Every branch and every loop iteration runs in a fresh block, so names",
    "declared inside are not visible after it ends.  Declaring a name twice in",
    "the same block is an error.  The initializer of a declaration runs before",
    "the name is bound, so `var x = x;` reads an outer `x`.",
    "",
    "## Expressions",
    "",
    "From lowest to highest precedence:",
    "",
    "| Operators | Notes |",
    "|---|---|",
    "| `\\|\\|` | logical or |",
    "| `&&` | logical and |",
    "| `!` and `< > <= >= == !=` | comparisons do not chain |",
    "| `+ -` | left associative |",
    "| `* /` | division truncates toward zero |",
    "| unary `-` | `-x` means `0 - x` |",
    "| `f(a, b)` | calls apply left to right: `f(1)(2)` |",
    "",
    "Comparisons and logical operators produce `1` or `0`.  Both operands of",
    "`&&` and `||` are always evaluated.  Integers are truthy when non-zero and",
    "functions are always truthy.  `==` compares integers by value and functions",
    "by identity.",
    "",
    "## Functions",
    "",
    "```",
    "var add = func(int a, b) -> int \x7b",
    "    ret a + b;",
    "\x7d;",
    "",
    "var counter = func() \x7b",
    "    var n = 0;",
    "    ret func() \x7b",
    "        n = n + 1;",
    "        ret n;",
    "    \x7d;",
    "\x7d;",
    "```",
    "",
    "A function literal captures the block it is created in.  Calling it runs",
    "the body in a new block whose parent is the captured one, with the",
    "parameters bound to the arguments.  A function that finishes without `ret`",
    "returns `0`.  Parameter and return types are optional annotations.",
    "",
    "## Errors",
    "",
    "A program stops at the first runtime error and reports one of:",
    "",
    "- `runtime error: divide by zero`",
    "- `runtime error: undefined variable`",
    "- `runtime error: variable already defined`",
    "- `runtime error: illegal return` (`ret` outside a function)",
    "- `runtime error: argument mismatch`",
    "- `runtime error: calling non-function`",
    "- `runtime error: math on function`",
    "- `runtime error: duplicate parameter`",
    "- `runtime error: stack overflow` (only with `--max-depth`)",
    "",
    "A program that does not parse reports `syntax error`."]

def guide : String := String.join (guideLines.map (· ++ "\n"))

end ClosureLang

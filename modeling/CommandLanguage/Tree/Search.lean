import CommandLanguage.Tree.CommandTree

/-!
# Resolving words

The walk that resolves the words after a command name to one usage.

A node takes one word as its value, or every word left if it is greedy; a flag node takes the value
of its flag too. Before a node that is no flag, and after the last one, flags of the command may
stand, in any order. A node that does not fit is passed over if it is optional. Siblings are tried in
their order and the first path that ends in a usage wins, or the first node that the source may not
use. When no path does, the answer tells the least deep of the places where paths went astray, and
whether a malformed flag was the reason.

* `Judge.visit` tries one node, `Judge.explore` siblings in turn, and `Judge.descend` what may follow
  a place.
* `CommandTree.walk` walks from the root; `CommandTree.dispatch` first checks the root's permission,
  and that some child of the root can take the first word.
-/

namespace CommandLanguage

/-! ## What is found -/

/-- How the resolution of words ended. -/
inductive Status where
  /-- The words resolve to a usage. -/
  | complete
  /-- No usage fits the words. -/
  | unknown
  /-- A flag is unknown, or lacks a value that fits. -/
  | failure
  /-- The source lacks a permission. -/
  | pause
deriving DecidableEq, Repr

/-- The name of a status. -/
def Status.name : Status → String
  | .complete => "complete"
  | .unknown => "unknown"
  | .failure => "failure"
  | .pause => "pause"

/-- A node with the words that it took, joined by single blanks. -/
structure Binding where
  node : Node
  value : String

/-- A typed flag with its value, if it has one. -/
structure BoundFlag where
  flag : Parameter
  value : Option String
deriving DecidableEq

/-- How a path can end a walk. -/
inductive Ending where
  /-- At a usage that the source may use. -/
  | complete (usage : NumberedUsage)
  /-- At something that the source may not use, with the usage to tell it about. -/
  | paused (closest : Option NumberedUsage)
deriving DecidableEq

/-- A path that ends a walk. -/
structure Hit where
  last : Place
  ending : Ending
  bindings : List Binding
  flags : List BoundFlag

/-- A path with what was bound before it. -/
def Hit.after (bindings : List Binding) (flags : List BoundFlag) (h : Hit) : Hit :=
  { h with bindings := bindings ++ h.bindings, flags := flags ++ h.flags }

/-- Where paths went astray, and whether a malformed flag was a reason. -/
structure Miss where
  last : Place
  failed : Bool

/-- The less deep of two misses; at one depth the first, failed if either is. -/
def Miss.merge (m k : Miss) : Miss :=
  if m.last.depth = k.last.depth then ⟨m.last, m.failed || k.failed⟩
  else if m.last.depth < k.last.depth then m
  else k

/-! ## The nearest usage -/

namespace Place

/-- The usage to name where a permission is lacking: the nearest at or below a place, else the first
on the way up. -/
def nearestUsage (p : Place) : Option NumberedUsage :=
  p.node.byDepth.findSome? (·.terminal) <|>
    p.lineage.findSome? fun n => n.terminal <|> n.fallback

/-- The usage to name where words were not understood: the nearest that ends in an argument or flag at
or below a place, else that of the first literal on the way up. -/
def closestUsage (p : Place) : Option NumberedUsage :=
  (p.node.byDepth.findSome? fun n => if n.isLiteral then none else n.terminal) <|>
    p.lineage.findSome? fun n => if n.isLiteral then n.terminal <|> n.fallback else none

end Place

/-! ### The search as a loop

The nodes that are still to be asked can be kept in a queue instead. The front one is taken out, and
unless it has the answer its children go to the back. -/

/-- The first answer of the nodes of a queue and those below them. -/
def Node.firstInQueue {α : Type} (ask : Node → Option α) : List Node → Option α
  | [] => none
  | n :: queue =>
    match ask n with
    | some answer => some answer
    | none => firstInQueue ask (queue ++ n.children)
termination_by queue => Node.size.sizes queue
decreasing_by
  rw [Node.sizes_append, Node.size.sizes, Node.size_eq_add_sizes]
  omega

/-- The usage to name where words were not understood, as the loop finds it. -/
def Place.closestInQueue (p : Place) : Option NumberedUsage :=
  Node.firstInQueue (fun n => if n.isLiteral then none else n.terminal) [p.node] <|>
    p.lineage.findSome? fun n => if n.isLiteral then n.terminal <|> n.fallback else none

/-! ## The walk -/

/-- What a walk asks about words and permissions. -/
structure Judge where
  /-- Whether the source passes a gate. -/
  permits : Option String → Bool
  /-- Whether a word can be read as the value of a parameter. -/
  fits : String → Parameter → Bool
  /-- Check the types of required arguments too. -/
  strict : Bool
  /-- The flags of the command. -/
  flags : FlagTable

namespace Judge

/-- Whether a parameter takes a word. Literals and flags go by name. Optional arguments always check
its type, or they would never be passed over; required ones only where the tree is strict. -/
def accepts (j : Judge) (p : Parameter) (token : String) : Bool :=
  match p.kind with
  | .literal _ _ => p.answersTo token
  | .flag _ _ => (flagAlias? token).any p.answersTo
  | .argument _ optional => if optional || j.strict then j.fits token p else true

/-- Bind a flag to the words after it: the flag, and the words then left. Nothing if it lacks a value
that fits. -/
def bindFlag (j : Judge) (flag : Parameter) (rest : List String) :
    Option (BoundFlag × List String) :=
  match flag.input?, rest with
  | none, rest => some (⟨flag, none⟩, rest)
  | some _, [] => none
  | some _, value :: rest => if j.fits value flag then some (⟨flag, some value⟩, rest) else none

/-- Take the flags at the front of the words: the flags, and the words then left. A word that is a
flag of no known name is malformed, unless `stop` leaves it to whatever comes next. Nothing if a
flag is malformed. -/
def takeFlags (j : Judge) (stop : Bool) : List String → Option (List BoundFlag × List String)
  | [] => some ([], [])
  | token :: rest =>
    if isFlagToken token then
      match j.flags.lookup token with
      -- A greedy value may begin with a dash.
      | none => if stop then some ([], token :: rest) else none
      | some flag =>
        match flag.input?, rest with
        | none, rest => (takeFlags j stop rest).map fun (more, left) => (⟨flag, none⟩ :: more, left)
        | some _, [] => none
        | some _, value :: rest =>
          if j.fits value flag then
            (takeFlags j stop rest).map fun (more, left) => (⟨flag, some value⟩ :: more, left)
          else none
    else some ([], token :: rest)

/-- The end of a path at a place: its usage if the source may use it, and nothing if there is none. -/
def finish? (j : Judge) (p : Place) : Option Hit :=
  p.node.resolved?.map fun u =>
    let ending := if j.permits u.usage.permission then .complete u else .paused (some u)
    ⟨p, ending, [], []⟩

/-- The end of a path at a node that the source may not use. -/
def pauseAt (p : Place) : Hit :=
  ⟨p, .paused p.nearestUsage, [], []⟩

/-- What a walk finds after the children of a place led nowhere: only flags may be left. -/
def close (j : Judge) (p : Place) (tokens : List String) (astray : Option Miss) :
    Except Miss Hit :=
  let miss := astray.getD ⟨p, false⟩
  match j.takeFlags false tokens with
  | some (flags, []) =>
    match j.finish? p with
    | some hit => .ok (hit.after [] flags)
    | none => .error miss
  | some (_, _ :: _) => .error miss
  | none => .error { miss with failed := true }

/-- The flags that may stand before a node: those taken, and the words then left. Nothing if a flag is
malformed. -/
def flagsBefore (j : Judge) (n : Node) (tokens : List String) :
    Option (List BoundFlag × List String) :=
  if n.isFlag then some ([], tokens) else j.takeFlags n.isGreedy tokens

/-- Bind a node to words that it takes: what is bound, with the flags taken before it, and the words
then left. Nothing if it is a flag that lacks a value that fits. -/
def consume (j : Judge) (n : Node) (taken : List BoundFlag) (token : String) (rest : List String) :
    Option (List Binding × List BoundFlag × List String) :=
  if n.isFlag then
    (j.bindFlag n.parameter rest).map fun (flag, left) => ([], [flag], left)
  else if n.isGreedy then some ([⟨n, " ".intercalate (token :: rest)⟩], taken, [])
  else some ([⟨n, token⟩], taken, rest)

/-- What a walk finds at a place where the words end: its usage, or a miss there. Without a usage a
place that can be passed over counts as never reached. -/
def arrive (j : Judge) (parent here : Place) : Except Miss Hit :=
  match j.finish? here with
  | some hit => .ok hit
  | none => .error ⟨if here.node.isSkippable then parent else here, false⟩

mutual

/-- Try a node below a place, and go on below it; if that leads nowhere, pass over it if it can be. -/
def visit (j : Judge) (parent : Place) : Node → List String → Except Miss Hit
  | node@⟨_, children⟩, tokens =>
    let here := parent.child node
    match j.flagsBefore node tokens with
    | none => .error ⟨parent, true⟩
    | some (_, []) => .error ⟨parent, false⟩
    | some (taken, token :: rest) =>
      -- What comes of the node taking the word.
      let own : Except Miss Hit :=
        if !j.accepts node.parameter token then .error ⟨parent, false⟩
        else if !j.permits node.permission then .ok (pauseAt here)
        else
          match j.consume node taken token rest with
          | none => .error ⟨parent, true⟩
          | some (bindings, flags, left) =>
            let below : Except Miss Hit :=
              if left.isEmpty then j.arrive parent here
              else
                match explore j here children left with
                | .ok hit => .ok hit
                | .error astray => j.close here left astray
            below.map (Hit.after bindings flags)
      match own with
      | .ok hit => .ok hit
      | .error miss =>
        -- Passing over the node leaves the flags before it taken, though none of them is bound.
        if node.isSkippable then
          (explore j here children (token :: rest)).mapError fun _ => miss
        else .error miss

/-- Try siblings below a place in turn: the first hit, else the merged misses. -/
def explore (j : Judge) (parent : Place) : List Node → List String → Except (Option Miss) Hit
  | [], _ => .error none
  | c :: cs, tokens =>
    match visit j parent c tokens with
    | .ok hit => .ok hit
    | .error miss =>
      (explore j parent cs tokens).mapError fun others => some (others.elim miss miss.merge)

end

/-- What a walk finds below a place. -/
def descend (j : Judge) (p : Place) (tokens : List String) : Except Miss Hit :=
  match j.explore p p.node.children tokens with
  | .ok hit => .ok hit
  | .error astray => j.close p tokens astray

end Judge

/-! ## The answer -/

/-- The answer to words: how their resolution ended, where, and what was bound. -/
structure Search where
  status : Status
  /-- The deepest place that the answer is about. -/
  last : Place
  usage : Option NumberedUsage
  /-- The usage to show when there is none, or beside it. -/
  closest : Option NumberedUsage
  bindings : List Binding
  flags : List BoundFlag

namespace Search

/-- The answer that a walk gives. -/
def ofWalk : Except Miss Hit → Search
  | .ok ⟨last, .complete u, bindings, flags⟩ =>
    ⟨.complete, last, some u, if last.node.isLeaf then some u else last.closestUsage, bindings, flags⟩
  | .ok ⟨last, .paused closest, bindings, flags⟩ =>
    ⟨.pause, last, none, closest, bindings, flags⟩
  | .error ⟨last, failed⟩ =>
    ⟨if failed then .failure else .unknown, last, none, last.closestUsage, [], []⟩

/-- Whether the words resolve to a usage. -/
def isComplete (s : Search) : Bool :=
  s.status = .complete

/-- The values of parameters that are no literals, by name. -/
def arguments (s : Search) : List (String × String) :=
  (s.bindings.filter (!·.node.isLiteral)).map fun b => (b.node.name, b.value)

/-- The last value typed for a flag name. -/
def flag? (s : Search) (name : String) : Option (Option String) :=
  (s.flags.reverse.find? (·.flag.name == name)).map (·.value)

end Search

namespace CommandTree

variable {Source : Type}

/-- What a walk through a tree asks on behalf of a source. -/
def judge (t : CommandTree) (caps : Capabilities Source) (source : Source) : Judge where
  permits := caps.permits source
  fits := caps.fits
  strict := t.settings.strict
  flags := t.flags

/-- Walk from the root. -/
def walk (t : CommandTree) (caps : Capabilities Source) (source : Source) (tokens : List String) :
    Search :=
  .ofWalk ((t.judge caps source).descend (.root t.root) tokens)

/-- Whether the first word is no flag and nothing below the root can take it or be passed over. -/
def refusesFirst (t : CommandTree) (j : Judge) (tokens : List String) : Bool :=
  match tokens with
  | [] => false
  | token :: _ =>
    !isFlagToken token &&
      t.root.children.all fun c => !c.isOptional && !j.accepts c.parameter token

/-- Resolve the words after the command name. -/
def dispatch (t : CommandTree) (caps : Capabilities Source) (source : Source)
    (tokens : List String) : Search :=
  let j := t.judge caps source
  if !j.permits t.root.permission then
    ⟨.pause, .root t.root, none, t.root.terminal <|> t.root.fallback, [], []⟩
  else if t.refusesFirst j tokens then .ofWalk (.error ⟨.root t.root, false⟩)
  else t.walk caps source tokens

end CommandTree

end CommandLanguage

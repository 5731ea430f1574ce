import ObjectIr.Heap.Basic

/-!
# Execution contexts

One line of execution: the stack of frames, the stack of scopes, and counts of all pushes and
pops. The innermost entry stands first. `pushFrame` refuses to exceed a limit; nothing else can
fail.
-/

namespace ObjectIr

structure Frame where
  receiver : Value
  /-- What methods are defined with while the frame is active. -/
  visibility : Visibility
  name : String
  block? : Option Block
  module : Module

inductive ScopeOrigin where
  /-- Made for the activation that pushed it. -/
  | allocated
  /-- The parent scope, pushed again by a body that runs inside it. -/
  | reused
  deriving DecidableEq

def ScopeOrigin.text : ScopeOrigin → String
  | .allocated => "allocated"
  | .reused => "reused"

structure ScopeEntry where
  scope : DynamicScope
  origin : ScopeOrigin
  deriving DecidableEq

structure Stats where
  framePushes : Nat := 0
  framePops : Nat := 0
  scopePushes : Nat := 0
  scopePops : Nat := 0
  scopeAllocations : Nat := 0
  deriving DecidableEq

namespace Stats

/-- All that was pushed has been popped. -/
def isBalanced (s : Stats) : Bool :=
  s.framePushes == s.framePops && s.scopePushes == s.scopePops

def text (s : Stats) : String :=
  "frames +" ++ toString s.framePushes ++ "/-" ++ toString s.framePops ++
    " scopes +" ++ toString s.scopePushes ++ "/-" ++ toString s.scopePops ++
    " allocated " ++ toString s.scopeAllocations

end Stats

structure Context where
  frames : List Frame := []
  scopes : List ScopeEntry := []
  stats : Stats := {}

namespace Context

def frameDepth (c : Context) : Nat := c.frames.length

def scopeDepth (c : Context) : Nat := c.scopes.length

def currentFrame? (c : Context) : Option Frame := c.frames.head?

def currentScope? (c : Context) : Option DynamicScope := c.scopes.head?.map ScopeEntry.scope

/-- At most `limit` frames are active at once. -/
def pushFrame (c : Context) (limit : Nat) (f : Frame) : Except Failure Context :=
  if limit ≤ c.frameDepth then .error .stackOverflow
  else .ok { c with
    frames := f :: c.frames
    stats := { c.stats with framePushes := c.stats.framePushes + 1 } }

/-- Without a frame, nothing is popped. -/
def popFrame (c : Context) : Context :=
  match c.frames with
  | [] => c
  | _ :: fs => { c with
      frames := fs, stats := { c.stats with framePops := c.stats.framePops + 1 } }

def pushScope (c : Context) (s : DynamicScope) (origin : ScopeOrigin) : Context :=
  let made := match origin with
    | .allocated => 1
    | .reused => 0
  { c with
    scopes := ⟨s, origin⟩ :: c.scopes
    stats := { c.stats with
      scopePushes := c.stats.scopePushes + 1
      scopeAllocations := c.stats.scopeAllocations + made } }

/-- Without a scope, nothing is popped. -/
def popScope (c : Context) : Context :=
  match c.scopes with
  | [] => c
  | _ :: ss => { c with
      scopes := ss, stats := { c.stats with scopePops := c.stats.scopePops + 1 } }

def setVisibility? (c : Context) (v : Visibility) : Option Context :=
  match c.frames with
  | [] => none
  | f :: fs => some { c with frames := { f with visibility := v } :: fs }

end Context

end ObjectIr

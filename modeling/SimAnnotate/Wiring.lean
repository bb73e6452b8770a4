import SimAnnotate.Catalog.Basic

/-!
# Which channel a signal group is wired to

Each model instance of the Stack binds channels. A binding matches a signal
group when the group's labels hold all of its selectors. A binding without
selectors takes those of its model's channel with the same alias; without any
it never matches. The group is wired to the first matching binding, in the
order of the Stack, that says which channel it binds.
-/

namespace SimAnnotate.Wiring

/-- A channel as an instance binds it. -/
structure Binding where
  inst : ModelInstance
  channel : Channel

/-- The bindings of a Stack in order, those of the bus itself left out. -/
def bindings (s : Stack) : List Binding :=
  (s.instances.filter (!·.isBus)).flatMap fun i =>
    i.channelList.map (Binding.mk i)

/-- The selectors that a model declares for an alias. -/
def declared? (m : Model) (aliasName : String) : Option Labels :=
  (m.channelList.filter (·.aliasName == some aliasName)).findSome? Channel.selectors?

/-- The selectors of a binding whose model is among `models`. -/
def selectors? (models : List Document) (b : Binding) : Option Labels :=
  b.channel.selectors?.or do
    let aliasName ← b.channel.aliasName
    let d ← models.find? (·.name == b.inst.model.name)
    declared? (← d.model?) aliasName

def accepts (models : List Document) (labels : Labels) (b : Binding) : Bool :=
  (selectors? models b).any (·.within labels)

/-- The bindings that match a group's labels. -/
def accepting (models : List Document) (s : Stack) (labels : Labels) :
    List Binding :=
  (bindings s).filter (accepts models labels)

/-- The Stack of a catalog that has exactly one. -/
def stack (c : Catalog) : Except Error Stack :=
  c.stackDocument.map fun d => d.stack?.getD default

/-- The bindings of a catalog that match a group. -/
def candidates (c : Catalog) (group : Document) :
    Except Error (List Binding) :=
  (stack c).map fun s =>
    accepting (c.documents .model) s group.metadata.labels

/-- The channel of a group that is wired; nothing for one that is not. -/
def channel? (c : Catalog) (group : Document) :
    Except Error (Option String) :=
  (candidates c group).map fun bs => bs.findSome? (·.channel.name)

/-- The channel that a group is wired to. -/
def channel (c : Catalog) (group : Document) : Except Error String := do
  match ← channel? c group with
  | some name => return name
  | none => throw (.notFound (.channel group.name))

/-- One warning for each matching binding without a name that stands before
the one that is taken. -/
def warnings (c : Catalog) (group : Document) : List Warning :=
  match candidates c group with
  | .ok bs =>
      (bs.takeWhile (·.channel.name.isNone)).map fun b =>
        .unnamedChannel b.inst.name b.channel.aliasName
  | .error _ => []

end SimAnnotate.Wiring

import ModuleLowering.Lowering.Requirement

namespace ModuleLowering

structure Access where
  holder : String
  property : ModuleName
  deriving DecidableEq

def Access.render (a : Access) : String := a.property.accessOn a.holder

namespace Requirement

def defaultAccess (r : Requirement) : Option Access :=
  (r.namespaces.head? <|> r.defaultHolder).map (⟨·, .identifier "default"⟩)

def namedAccess (r : Requirement) (name : ModuleName) : Option Access := r.holder.map (⟨·, name⟩)

end Requirement

namespace Requirements

def access (rs : Requirements) (o : Origin) : Option Access :=
  (rs.find? o.specifier).bind fun r =>
    match o.imported with
    | .default => r.defaultAccess
    | .named name => r.namedAccess name
    | .everything => none

def reexportAccess (rs : Requirements) (specifier : String) (name : ModuleName) : Option Access :=
  (rs.find? specifier).bind fun r => if name.isDefault then r.defaultAccess else r.namedAccess name

end Requirements

def Bindings.value (b : Bindings) (rs : Requirements) (name : String) : String :=
  (((b.origin? name).bind rs.access).map (·.render)).getD name

end ModuleLowering

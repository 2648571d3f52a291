import BytecodeFlow.Assembly.Listing
import BytecodeFlow.Descriptor
import BytecodeFlow.Yaml.Document
import BytecodeFlow.Yaml.Value

namespace BytecodeFlow

structure Class where
  name : String
  methods : List Method

structure MethodSource where
  name : String := ""
  descriptor : String := ""
  static : Bool := false
  code : String := ""

structure ClassSource where
  name : String := ""
  methods : List MethodSource := []

inductive MethodSource.Error
  | descriptor (name : String) (cause : Descriptor.Error)
  | assembly (key : String) (cause : Assembly.Error)
  | defect (method : Method) (cause : Method.Defect)

def MethodSource.Error.message : MethodSource.Error → String
  | descriptor name e => "method " ++ name ++ ": " ++ e.message
  | assembly key e => "method " ++ key ++ ": " ++ e.message
  | defect m d => m.defectMessage d

inductive ClassSource.Error
  | yaml (cause : Yaml.Error)
  | noName
  | method (className : String) (cause : MethodSource.Error)

def ClassSource.Error.message : ClassSource.Error → String
  | yaml _ => "decode class: yaml"
  | noName => "decode class: missing class name"
  | method c e => "class " ++ c ++ ": " ++ e.message

def MethodSource.decode (className : String) (s : MethodSource) : Except Error Method := do
  let signature ← (Descriptor.method s.descriptor).mapError (.descriptor s.name)
  let code ← (Assembly.assemble s.code).mapError (.assembly (s.name ++ s.descriptor))
  let slots : Int := signature.slots + if s.static then 0 else 1
  let m : Method := {
    className
    name := s.name
    descriptor := s.descriptor
    static := s.static
    -- there is room for receiver and parameters, whatever limit the text sets
    code := { code with maxLocals := max code.maxLocals slots } }
  match m.defect? with
  | some d => .error (.defect m d)
  | none => return m

def ClassSource.decode (s : ClassSource) : Except Error Class :=
  if s.name = "" then .error .noName
  else do
    let methods ← (s.methods.mapM (MethodSource.decode s.name)).mapError (.method s.name)
    return ⟨s.name, methods⟩

def MethodSource.ofNode (n : Yaml.Node) : Except Yaml.Error MethodSource := do
  let entries ← n.entries
  return {
    name := ← (Yaml.Node.valueOf entries "name").text
    descriptor := ← (Yaml.Node.valueOf entries "descriptor").text
    static := ← (Yaml.Node.valueOf entries "static").truth
    code := ← (Yaml.Node.valueOf entries "code").text }

def ClassSource.ofNode (n : Yaml.Node) : Except Yaml.Error ClassSource := do
  let entries ← n.entries
  return {
    name := ← (Yaml.Node.valueOf entries "class").text
    methods := ← (← (Yaml.Node.valueOf entries "methods").items).mapM MethodSource.ofNode }

def ClassSource.readFile (text : String) : Except Error Class := do
  let n ← (Yaml.parse text).mapError .yaml
  let source ← (ofNode n).mapError .yaml
  source.decode

end BytecodeFlow

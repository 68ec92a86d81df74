import FlowCanvas.Template.Catalog

/-!
# The catalog that comes with the library

Templates of the HTTP client and of a few functions of the standard library.
-/

namespace FlowCanvas.Catalog

/-- An argument of a bundled template. -/
def bundledArgument (key label description : String) (valueType : ValueType) (value : String)
    (optional : Bool) (defaultValue : Option String) : Property :=
  ⟨key, label, description, valueType, .string value, optional, true, defaultValue.map .string⟩

/-- A bundled template. -/
def bundledNode (codedata : Codedata) (label description : String) (properties : List Property)
    (flags : UInt32) : FlowNode :=
  ⟨none, codedata.node, ⟨label, description⟩, codedata, .ofList properties, [], ⟨flags⟩⟩

/-- The path of an HTTP request. -/
def pathArgument : Property :=
  bundledArgument "path" "Path" "Resource path" .expression "\"\"" false (some "\"\"")

/-- The headers of an HTTP request. -/
def headersArgument : Property :=
  bundledArgument "headers" "Headers" "The entity headers" .expression "" true (some "()")

/-- The type of an HTTP response. -/
def targetTypeArgument : Property :=
  bundledArgument "targetType" "Target Type" "HTTP response or the payload type" .type "json" true
    (some "json")

/-- The payload of an HTTP request. -/
def messageArgument : Property :=
  bundledArgument "message" "Message" "An HTTP outbound request or any allowed payload"
    .expression "\x7b\x7d" false (some "\x7b\x7d")

/-- A remote method of the HTTP client. -/
def httpAction (name verb : String) (properties : List Property) : FlowNode :=
  bundledNode (.external .actionCall "ballerina" "http" (some "Client") name) name
    ("Sends an HTTP " ++ verb ++ " request to the service") properties 1

/-- The bundled templates. -/
def bundledNodes : List FlowNode :=
  [bundledNode (.external .newConnection "ballerina" "http" (some "Client") "init") "Client"
      "Creates a new HTTP client to interact with a remote service"
      [bundledArgument "url" "URL" "URL of the target service" .expression "" false none,
        bundledArgument "config" "Config" "Configurations used when initializing the client"
          .expression "" true (some "\x7b\x7d")] 9,
    httpAction "get" "GET" [pathArgument, headersArgument, targetTypeArgument],
    httpAction "post" "POST"
      [pathArgument, messageArgument, headersArgument,
        bundledArgument "mediaType" "Media Type" "The MIME type header of the request entity"
          .expression "" true (some "()"),
        targetTypeArgument],
    httpAction "put" "PUT" [pathArgument, messageArgument, headersArgument, targetTypeArgument],
    httpAction "delete" "DELETE"
      [pathArgument,
        bundledArgument "message" "Message" "An optional HTTP outbound request message"
          .expression "" true (some "()"),
        headersArgument, targetTypeArgument],
    bundledNode (.external .functionCall "ballerina" "log" none "printInfo") "printInfo"
      "Prints info logs"
      [bundledArgument "msg" "Message" "The message to be logged" .expression "\"\"" false
          (some "\"\""),
        bundledArgument "error" "Error" "The error struct to be logged" .expression "" true
          (some "()")] 0,
    bundledNode (.external .functionCall "ballerina" "io" none "println") "println"
      "Prints values to the standard output with a trailing newline"
      [bundledArgument "values" "Values" "The values to be printed" .expression "\"\"" false
          (some "\"\"")] 0]

/-- The bundled catalog. -/
def bundled : Catalog := ofNodes bundledNodes

end FlowCanvas.Catalog

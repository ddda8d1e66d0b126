import Frontend.Json.Basic

/-!
# What clients can do

The first request of a client lists what the client can do. The server makes no use of it, but it
refuses a list that is not as it should be.
-/

namespace Frontend.Capabilities

def switch (name : String) : String × Shape := (name, .bool)

/-- Most abilities say whether they can be registered later on. -/
def dynamic : String × Shape := switch "dynamicRegistration"

/-- An ability with switches only. -/
def switches (names : List String) : Shape := .record (names.map switch)

/-- An ability that can be registered later on, with more switches. -/
def ability (names : List String) : Shape := .record (dynamic :: names.map switch)

def numbers : Shape := .record [("valueSet", .list .double)]

/-- An ability that lists the properties it is about. -/
def properties : Shape := .record [("properties", .list .text)]

def tool (name : String) : Shape := .record [(name, .text), ("version", .text)]

/-- Abilities for a whole workspace. -/
def workspace : Shape := .record [
  switch "applyEdit",
  ("workspaceEdit", .record [
    switch "documentChanges",
    ("failureHandling", .text),
    ("resourceOperations", .list .text),
    switch "normalizesLineEndings",
    ("changeAnnotationSupport", switches ["groupsOnLabel"])]),
  ("didChangeConfiguration", ability []),
  ("didChangeWatchedFiles", ability []),
  ("symbol", .record [dynamic, ("symbolKind", numbers), ("tagSupport", numbers)]),
  ("executeCommand", ability []),
  switch "workspaceFolders",
  switch "configuration",
  ("semanticTokens", switches ["refreshSupport"]),
  ("codeLens", switches ["refreshSupport"]),
  ("fileOperations", ability
    ["didCreate", "willCreate", "didRename", "willRename", "didDelete", "willDelete"])]

/-- Abilities around completions. -/
def completion : Shape := .record [
  dynamic,
  ("completionItem", .record [
    switch "snippetSupport",
    switch "commitCharactersSupport",
    ("documentationFormat", .list .text),
    switch "deprecatedSupport",
    switch "preselectSupport",
    ("tagSupport", numbers),
    switch "insertReplaceSupport",
    ("resolveSupport", properties),
    ("insertTextModeSupport", numbers)]),
  ("completionItemKind", numbers),
  switch "contextSupport"]

/-- Abilities around the signatures of functions. -/
def signatureHelp : Shape := .record [
  dynamic,
  ("signatureInformation", .record [
    ("documentationFormat", .list .text),
    ("parameterInformation", switches ["labelOffsetSupport"]),
    switch "activeParameterSupport"]),
  switch "contextSupport"]

/-- Abilities around the actions that are offered for a piece of code. -/
def codeAction : Shape := .record [
  dynamic,
  ("codeActionLiteralSupport", .record [
    ("codeActionKind", .record [("valueSet", .list .text)])]),
  switch "isPreferredSupport",
  switch "disabledSupport",
  switch "dataSupport",
  ("resolveSupport", properties),
  switch "honorsChangeAnnotations"]

/-- Abilities around the meaning of single tokens. -/
def semanticTokens : Shape := .record [
  dynamic,
  ("requests", .record [switch "range", ("full", .any)]),
  ("tokenTypes", .list .text),
  ("tokenModifiers", .list .text),
  ("formats", .list .text),
  switch "overlappingTokenSupport",
  switch "multilineTokenSupport"]

/-- Abilities for single documents. -/
def textDocument : Shape := .record [
  ("synchronization", ability ["willSave", "willSaveWaitUntil", "didSave"]),
  ("completion", completion),
  ("hover", .record [dynamic, ("contentFormat", .list .text)]),
  ("signatureHelp", signatureHelp),
  ("declaration", ability ["linkSupport"]),
  ("definition", ability ["linkSupport"]),
  ("typeDefinition", ability ["linkSupport"]),
  ("implementation", ability ["linkSupport"]),
  ("references", ability []),
  ("documentHighlight", ability []),
  ("documentSymbol", .record [
    dynamic,
    ("symbolKind", numbers),
    switch "hierarchicalDocumentSymbolSupport",
    ("tagSupport", numbers),
    switch "labelSupport"]),
  ("codeAction", codeAction),
  ("codeLens", ability []),
  ("documentLink", ability ["tooltipSupport"]),
  ("colorProvider", ability []),
  ("formatting", ability []),
  ("rangeFormatting", ability []),
  ("onTypeFormatting", ability []),
  ("publishDiagnostics", .record [
    switch "relatedInformation",
    ("tagSupport", numbers),
    switch "versionSupport",
    switch "codeDescriptionSupport",
    switch "dataSupport"]),
  ("rename", .record [
    dynamic,
    switch "prepareSupport",
    ("prepareSupportDefaultBehavior", .double),
    switch "honorsChangeAnnotations"]),
  ("foldingRange", .record [dynamic, ("rangeLimit", .nat32), switch "lineFoldingOnly"]),
  ("selectionRange", ability []),
  ("callHierarchy", ability []),
  ("semanticTokens", semanticTokens),
  ("linkedEditingRange", ability []),
  ("moniker", ability [])]

def window : Shape := .record [
  switch "workDoneProgress",
  ("showMessage", .record [("messageActionItem", switches ["additionalPropertiesSupport"])]),
  ("showDocument", switches ["support"])]

/-- Abilities of no special kind. -/
def general : Shape := .record [("regularExpressions", tool "engine"), ("markdown", tool "parser")]

/-- All that a client says about its abilities. -/
def shape : Shape := .record [
  ("workspace", workspace), ("textDocument", textDocument), ("window", window), ("general", general),
  ("experimental", .any)]

end Frontend.Capabilities

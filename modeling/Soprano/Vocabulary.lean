import Soprano.Qt.Url

/-! The names of the XML Schema, RDF, RDF Schema, NEPOMUK (NRL and NAO) and Soprano inference (SIL)
vocabularies that the modelled code and the rule files use. -/

namespace Soprano.Vocabulary

namespace XMLSchema

def xsdNamespace : QUrl := .ofString "http://www.w3.org/2001/XMLSchema#" (by decide)
def xsdInt : QUrl := xsdNamespace.extended "int" (by decide)
def integer : QUrl := xsdNamespace.extended "integer" (by decide)
def negativeInteger : QUrl := xsdNamespace.extended "negativeInteger" (by decide)
def nonNegativeInteger : QUrl := xsdNamespace.extended "nonNegativeInteger" (by decide)
def decimal : QUrl := xsdNamespace.extended "decimal" (by decide)
def xsdShort : QUrl := xsdNamespace.extended "short" (by decide)
def xsdLong : QUrl := xsdNamespace.extended "long" (by decide)
def unsignedInt : QUrl := xsdNamespace.extended "unsignedInt" (by decide)
def unsignedShort : QUrl := xsdNamespace.extended "unsignedShort" (by decide)
def unsignedLong : QUrl := xsdNamespace.extended "unsignedLong" (by decide)
def boolean : QUrl := xsdNamespace.extended "boolean" (by decide)
def xsdDouble : QUrl := xsdNamespace.extended "double" (by decide)
def xsdFloat : QUrl := xsdNamespace.extended "float" (by decide)
def string : QUrl := xsdNamespace.extended "string" (by decide)
def date : QUrl := xsdNamespace.extended "date" (by decide)
def time : QUrl := xsdNamespace.extended "time" (by decide)
def dateTime : QUrl := xsdNamespace.extended "dateTime" (by decide)
def base64Binary : QUrl := xsdNamespace.extended "base64Binary" (by decide)

end XMLSchema

namespace RDF

def rdfNamespace : QUrl :=
  .ofString "http://www.w3.org/1999/02/22-rdf-syntax-ns#" (by decide)
def XMLLiteral : QUrl := rdfNamespace.extended "XMLLiteral" (by decide)
def Statement : QUrl := rdfNamespace.extended "Statement" (by decide)
def subject : QUrl := rdfNamespace.extended "subject" (by decide)
def predicate : QUrl := rdfNamespace.extended "predicate" (by decide)
def object : QUrl := rdfNamespace.extended "object" (by decide)
def type : QUrl := rdfNamespace.extended "type" (by decide)
def Property : QUrl := rdfNamespace.extended "Property" (by decide)

end RDF

namespace RDFS

def rdfsNamespace : QUrl := .ofString "http://www.w3.org/2000/01/rdf-schema#" (by decide)
def Class : QUrl := rdfsNamespace.extended "Class" (by decide)
def Resource : QUrl := rdfsNamespace.extended "Resource" (by decide)
def ContainerMembershipProperty : QUrl :=
  rdfsNamespace.extended "ContainerMembershipProperty" (by decide)
def comment : QUrl := rdfsNamespace.extended "comment" (by decide)
def domain : QUrl := rdfsNamespace.extended "domain" (by decide)
def range : QUrl := rdfsNamespace.extended "range" (by decide)
def member : QUrl := rdfsNamespace.extended "member" (by decide)
def subClassOf : QUrl := rdfsNamespace.extended "subClassOf" (by decide)
def subPropertyOf : QUrl := rdfsNamespace.extended "subPropertyOf" (by decide)

end RDFS

namespace NRL

def nrlNamespace : QUrl :=
  .ofString "http://www.semanticdesktop.org/ontologies/2007/08/15/nrl#" (by decide)
def Ontology : QUrl := nrlNamespace.extended "Ontology" (by decide)
def GraphMetadata : QUrl := nrlNamespace.extended "GraphMetadata" (by decide)
def cardinality : QUrl := nrlNamespace.extended "cardinality" (by decide)
def coreGraphMetadataFor : QUrl := nrlNamespace.extended "coreGraphMetadataFor" (by decide)
def maxCardinality : QUrl := nrlNamespace.extended "maxCardinality" (by decide)
def minCardinality : QUrl := nrlNamespace.extended "minCardinality" (by decide)

end NRL

namespace NAO

def naoNamespace : QUrl :=
  .ofString "http://www.semanticdesktop.org/ontologies/2007/08/15/nao#" (by decide)
def created : QUrl := naoNamespace.extended "created" (by decide)

end NAO

namespace SIL

def silNamespace : QUrl := .ofString "http://soprano.org/sil#" (by decide)
def InferenceMetaData : QUrl := silNamespace.extended "InferenceMetaData" (by decide)
def InferenceGraph : QUrl := silNamespace.extended "InferenceGraph" (by decide)
def sourceStatement : QUrl := silNamespace.extended "sourceStatement" (by decide)
def context : QUrl := silNamespace.extended "context" (by decide)

end SIL

end Soprano.Vocabulary
